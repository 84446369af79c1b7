import PageStore.Proofs.Pool.Books
import PageStore.Proofs.Replacer.Queue

/-!
# The line of pages that may leave a pool

A pool that brings a page in takes a free frame for it, or else the frame of the page that its
replacer gives up. `Pool.line` is the order in which the pages without guards would be given up,
and `Layout.take` the choice of a frame when that order is known. With the LRU replacer:

* `Sound.mem_line`: the pages in line are those in a frame that nobody holds;
* `Sound.newPage_of_take` and `Sound.fetch_of_take`: the frame that is chosen is the one that the
  page comes into, and no other frame is touched;
* `Sound.take_eq_none_iff`: there is none to choose when every frame is guarded;
* `Sound.line_release`: a page joins the line at the end, with its last guard;
* `Still`: flushing leaves every page where it is, in a frame and in line;
* `Ebbs`: bringing pages in, fetching and deleting take pages out of the line at most.
-/

namespace PageStore

/-! ## Layouts -/

/-- Where the pages of a pool with `n` frames are, and which of them may leave. -/
structure Layout (n : Nat) where
  /-- the frame that holds a page -/
  frame : PageId → Option (Fin n)
  /-- the frames that hold no page, in the order in which they are used -/
  free : List (Fin n)
  /-- the pages that may leave, in the order in which they do -/
  line : List PageId

namespace Layout

variable {n : Nat}

/-- Takes a frame for another page: the first free one, or else that of the first page in line,
which leaves. -/
def take (l : Layout n) : Option (Fin n × Layout n) :=
  match l.free, l.line with
  | f :: free, _ => some (f, { l with free })
  | [], p :: line =>
    (l.frame p).map fun f => (f, { l with frame := Function.update l.frame p none, line })
  | [], [] => none

/-- Page `p` comes into frame `f`. -/
def place (f : Fin n) (p : PageId) (l : Layout n) : Layout n :=
  { l with frame := Function.update l.frame p (some f) }

/-- Frame `f` is free again. -/
def putBack (f : Fin n) (l : Layout n) : Layout n := { l with free := l.free ++ [f] }

theorem take_of_free {l : Layout n} {f : Fin n} {free : List (Fin n)} (hfree : l.free = f :: free) :
    l.take = some (f, { l with free }) := by
  rw [take, hfree]

theorem take_of_line {l : Layout n} {p : PageId} {line : List PageId} {f : Fin n}
    (hfree : l.free = []) (hline : l.line = p :: line) (hf : l.frame p = some f) :
    l.take = some (f, { l with frame := Function.update l.frame p none, line }) := by
  rw [take, hfree, hline]
  simp only [hf, Option.map_some]

theorem take_of_nil {l : Layout n} (hfree : l.free = []) (hline : l.line = []) : l.take = none := by
  rw [take, hfree, hline]

/-- At most the first page leaves the line. -/
theorem line_take {l l' : Layout n} {f : Fin n} (h : l.take = some (f, l')) :
    l'.line.Sublist l.line := by
  rcases hfree : l.free with _ | ⟨d, free⟩
  · rcases hline : l.line with _ | ⟨p, line⟩
    · rw [take, hfree, hline] at h
      cases h
    · rw [take, hfree, hline] at h
      obtain ⟨d, -, heq⟩ := Option.map_eq_some_iff.1 h
      cases heq
      exact List.sublist_cons_self p line
  · rw [take_of_free hfree] at h
    cases h
    exact .refl _

end Layout

namespace Pool

open PageStore.Action Finset

variable {n m : Nat} {pool pool' : Pool n m} {gs : List (Guard n)} {q : List (Fin n)} {f : Fin n}
  {p : PageId}

/-! ## The line -/

/-- The pages that may leave the pool, in the order in which they do as long as none is used. -/
def line (pool : Pool n m) : List PageId :=
  (pool.replacer.drain n).map fun f => pool.frames[f].page

/-- Where the pages are, and which may leave. -/
def layout (pool : Pool n m) : Layout n := ⟨fun p => pool.table[p]?, pool.free, pool.line⟩

theorem line_eq (hq : pool.replacer.Queues q) : pool.line = q.map fun f => pool.frames[f].page := by
  rw [line, hq.drain_eq]

/-- The line depends on the pages of the frames in the queue alone. -/
theorem line_eq_of_queues (hq : pool'.replacer.Queues q)
    (hpage : ∀ f ∈ q, pool'.frames[f].page = pool.frames[f].page) :
    pool'.line = q.map fun f => pool.frames[f].page := by
  rw [line_eq hq]
  exact List.map_congr_left hpage

namespace Sound

/-- A page has no pins when nobody holds it. -/
theorem pins_eq_zero_iff (h : pool.Sound gs) (ht : pool.table[p]? = some f) :
    pool.frames[f].pins = 0 ↔ ∀ g ∈ gs, g.page ≠ p := by
  rw [(h.frame f).pins_eq, h.length_modesOn ht, List.countP_eq_zero]
  simp only [decide_eq_true_eq]

/-- The frames in the queue hold the pages that nobody holds. -/
theorem mem_queue_iff (h : pool.Sound gs) (hq : pool.replacer.Queues q)
    (ht : pool.table[p]? = some f) : f ∈ q ↔ ∀ g ∈ gs, g.page ≠ p := by
  obtain ⟨hp, hpage⟩ := (h.table_iff p f).1 ht
  rw [hq.mem_iff, h.candidate_iff, h.pins_eq_zero_iff ht, hpage]
  exact and_iff_right hp

theorem table_of_mem_queue (h : pool.Sound gs) (hq : pool.replacer.Queues q) (hf : f ∈ q) :
    pool.table[pool.frames[f].page]? = some f :=
  (h.table_iff _ f).2 ⟨((h.candidate_iff f).1 ((hq.mem_iff f).1 hf)).1, rfl⟩

/-- **The pages in line** are those in a frame that nobody holds. -/
theorem mem_line (h : pool.Sound gs) (hq : pool.replacer.Queues q) :
    p ∈ pool.line ↔ (∃ f, pool.table[p]? = some f) ∧ ∀ g ∈ gs, g.page ≠ p := by
  rw [line_eq hq, List.mem_map]
  constructor
  · rintro ⟨f, hf, rfl⟩
    have ht := h.table_of_mem_queue hq hf
    exact ⟨⟨f, ht⟩, (h.mem_queue_iff hq ht).1 hf⟩
  · rintro ⟨⟨f, ht⟩, hnone⟩
    exact ⟨f, (h.mem_queue_iff hq ht).2 hnone, ((h.table_iff p f).1 ht).2⟩

/-- No page is in line twice, as no page is in two frames. -/
theorem nodup_line (h : pool.Sound gs) (hq : pool.replacer.Queues q) : pool.line.Nodup := by
  rw [line_eq hq]
  refine List.Nodup.map_on (fun f hf d hd hpage => ?_) hq.nodup
  have hlook := h.table_of_mem_queue hq hf
  rw [hpage, h.table_of_mem_queue hq hd] at hlook
  exact (Option.some.inj hlook).symm

/-- A frame that stops being a candidate takes its page out of the line. -/
theorem line_pin (h : pool.Sound gs) (hq : pool.replacer.Queues q) (ht : pool.table[p]? = some f)
    (hreplacer : pool'.replacer = pool.replacer.pin f)
    (hpage : ∀ d : Fin n, d ≠ f → pool'.frames[d].page = pool.frames[d].page) :
    pool'.replacer.Queues (q.filter (· ≠ f)) ∧ pool'.line = pool.line.filter (· ≠ p) := by
  have hq' : pool'.replacer.Queues (q.filter (· ≠ f)) := hreplacer ▸ hq.pin f
  refine ⟨hq', ?_⟩
  rw [line_eq_of_queues hq' fun d hd => hpage d (of_decide_eq_true (List.mem_filter.1 hd).2),
    line_eq hq, List.filter_map]
  refine congrArg (List.map _) (List.filter_congr fun d hd => decide_eq_decide.2 (not_congr ?_))
  -- the page of another frame is another page
  have hlook := h.table_of_mem_queue hq hd
  obtain ⟨-, hpage⟩ := (h.table_iff p f).1 ht
  constructor
  · rintro rfl
    exact hpage
  · intro hdp
    change pool.frames[d].page = p at hdp
    rw [hdp, ht] at hlook
    exact (Option.some.inj hlook).symm

end Sound

/-! ## Calls that keep the line -/

/-- The pages are where they were, and the line is the same. -/
structure Still (pool pool' : Pool n m) : Prop where
  table_eq : pool'.table = pool.table
  free_eq : pool'.free = pool.free
  replacer_eq : pool'.replacer = pool.replacer
  page_eq : ∀ f : Fin n, pool'.frames[f].page = pool.frames[f].page

namespace Still

theorem refl (pool : Pool n m) : Still pool pool := ⟨rfl, rfl, rfl, fun _ => rfl⟩

theorem line_eq (h : Still pool pool') : pool'.line = pool.line := by
  rw [line, line, h.replacer_eq]
  exact List.map_congr_left fun f _ => h.page_eq f

theorem layout_eq (h : Still pool pool') : pool'.layout = pool.layout := by
  rw [layout, layout, h.table_eq, h.free_eq, h.line_eq]

/-- A frame may change as long as it keeps its page. -/
theorem editFrame (h : Still pool pool') (f : Fin n) {change : Frame → Frame}
    (hchange : ∀ x, (change x).page = x.page) : Still pool (Pool.editFrame f change pool') where
  table_eq := h.table_eq
  free_eq := h.free_eq
  replacer_eq := h.replacer_eq
  page_eq d := by
    rw [getElem_editFrame]
    split
    · next hd => rw [hchange, hd, h.page_eq]
    · exact h.page_eq d

end Still

/-- What happens on disk does not move a page. -/
theorem still_onSpace {α : Type} (act : Action (Space m) α) :
    Preserves (Still pool) (onSpace act) := by
  intro pool' h
  cases hrun : act pool'.space with
  | ok a s =>
    rw [onSpace_ok hrun]
    exact ⟨h.table_eq, h.free_eq, h.replacer_eq, h.page_eq⟩
  | error e s =>
    rw [onSpace_error hrun]
    exact ⟨h.table_eq, h.free_eq, h.replacer_eq, h.page_eq⟩

theorem still_edit (g : Guard n) (change : Page → Except Halt Page) :
    Preserves (Still pool) (edit g change) := by
  refine (preserves_modify fun _ h => h.editFrame g.frame fun _ => rfl).bind fun _ => ?_
  refine preserves_get.bind fun _ => (preserves_lift _).bind fun _ => ?_
  exact preserves_modify fun _ h => h.editFrame g.frame fun _ => rfl

theorem still_flushFrame (f : Fin n) : Preserves (Still pool) (flushFrame f) := by
  refine preserves_get.bind fun _ => ?_
  dsimp only
  split
  · exact preserves_pure _
  · refine (still_onSpace _).bind fun _ => ?_
    refine (preserves_modify fun _ h => ?_).bind fun _ => preserves_pure _
    exact h.editFrame f fun _ => rfl

/-- **Flushing a page** leaves the line as it is. -/
theorem still_flush (p : PageId) : Preserves (Still pool) (flush p) := by
  by_cases hp : (!p.isSome) = true
  · rw [flush, hp]
    exact preserves_throw _
  rw [flush, if_neg hp]
  refine preserves_get.bind fun _ => ?_
  split
  · exact preserves_pure _
  · exact still_flushFrame _

theorem still_flushFrames (l : List (Fin n)) : Preserves (Still pool) (flushFrames l) := by
  induction l with
  | nil => exact preserves_pure _
  | cons f rest ih =>
    refine preserves_get.bind fun _ => preserves_get.bind fun _ => ?_
    split
    · exact (still_flushFrame f).bind fun _ => ih.bind fun _ => preserves_pure _
    · exact ih

/-! ## Taking a frame -/

/-- A page comes into a frame that is not in the queue. -/
theorem layout_insert (hq : pool.replacer.Queues q) (hf : f ∉ q)
    (htable : pool'.table = pool.table.insert p f) (hfree : pool'.free = pool.free)
    (hreplacer : pool'.replacer = pool.replacer.pin f)
    (hpage : ∀ d : Fin n, d ≠ f → pool'.frames[d].page = pool.frames[d].page) :
    pool'.layout = pool.layout.place f p ∧ pool'.replacer.Queues q := by
  have hq' : pool'.replacer.Queues q := hreplacer ▸ hq.pin_of_not_mem hf
  have hline : pool'.line = pool.line := by
    rw [line_eq_of_queues hq' fun d hd => hpage d (ne_of_mem_of_not_mem hd hf), line_eq hq]
  have hframe : (fun x => pool'.table[x]?) =
      Function.update (fun x => pool.table[x]?) p (some f) := by
    funext x
    rw [htable, Std.HashMap.getElem?_insert, Function.update_apply]
    exact if_congr (by rw [beq_iff_eq, eq_comm]) rfl rfl
  exact ⟨by rw [layout, hframe, hfree, hline]; rfl, hq'⟩

theorem place_eq_ok (hq : pool.replacer.Queues q) (hf : f ∉ q) (p : PageId) (data : Page)
    (d : Bool) (mode : Mode) :
    ∃ pool', latch p f mode (install f p data d pool) = .ok ⟨p, f, mode⟩ pool' ∧
      pool'.layout = pool.layout.place f p ∧ pool'.replacer.Queues q := by
  refine ⟨_, rfl, layout_insert hq hf rfl rfl rfl fun d hd => ?_⟩
  rw [getElem_editFrame, if_neg hd, install, getElem_editFrame, if_neg hd]

namespace Sound

theorem of_acquire (h : pool.Sound gs) (hrun : acquire pool = .ok f pool') :
    Sound (putBack f pool') gs ∧ pool'.pages = pool.pages ∧
      ∀ p : PageId, pool.table[p]? = none → pool'.table[p]? = none := by
  rcases h.acquire_cases with ⟨d, pool₁, hok, hs, hpages, habsent⟩ | ⟨pool₁, herror, -⟩
  · rw [hok] at hrun
    cases hrun
    exact ⟨hs, hpages, habsent⟩
  · rw [herror] at hrun
    cases hrun

/-- The first page in line leaves its frame. -/
theorem acquire_of_queue (h : pool.Sound gs) (hq : pool.replacer.Queues (f :: q))
    (hfree : pool.free = []) :
    ∃ pool', acquire pool = .ok f pool' ∧ pool'.replacer.Queues q ∧ pool'.layout =
      ⟨Function.update (fun x => pool.table[x]?) pool.frames[f].page none, [],
        q.map fun f => pool.frames[f].page⟩ := by
  obtain ⟨hvictim, hrest⟩ := hq.victim_cons
  have hmem : pool.frames[f].page.val.toNat ∈ pool.space.members :=
    h.mem_of_table (h.table_of_mem_queue hq List.mem_cons_self)
  let pool₁ : Pool n m := { pool with replacer := pool.replacer.pin f }
  obtain ⟨s, hevict, -⟩ : ∃ s, evict f pool₁ = .ok () (editFrame f Frame.reset
      { pool₁ with space := s, table := pool.table.erase pool.frames[f].page }) ∧ _ :=
    evict_eq_ok h.space hmem
  let pool' : Pool n m := editFrame f Frame.reset
    { pool₁ with space := s, table := pool.table.erase pool.frames[f].page }
  refine ⟨pool', acquire_of_victim hfree hvictim hevict, hrest, ?_⟩
  obtain ⟨hf, -⟩ := List.nodup_cons.1 hq.nodup
  have hline : pool'.line = q.map fun f => pool.frames[f].page := by
    refine line_eq_of_queues hrest fun d hd => ?_
    rw [getElem_editFrame, if_neg (ne_of_mem_of_not_mem hd hf)]
  have hframe : (fun x => pool'.table[x]?) =
      Function.update (fun x => pool.table[x]?) pool.frames[f].page none := by
    have herase : ∀ x : PageId, pool'.table[x]? =
        if x = pool.frames[f].page then none else pool.table[x]? := lookup_erase rfl
    funext x
    rw [herase, Function.update_apply]
  rw [layout, hframe, hline]
  exact congrArg (Layout.mk _ · _) hfree

/-- **A frame is taken** as the layout says. It holds no page then, and is not in the queue. -/
theorem acquire_of_take (h : pool.Sound gs) (hq : pool.replacer.Queues q) {l : Layout n}
    (htake : pool.layout.take = some (f, l)) :
    ∃ pool' q', acquire pool = .ok f pool' ∧ pool'.layout = l ∧ pool'.replacer.Queues q' ∧
      f ∉ q' := by
  have hout : ∀ {pool' : Pool n m} {q' : List (Fin n)}, acquire pool = .ok f pool' →
      pool'.replacer.Queues q' → f ∉ q' := by
    intro pool' q' hrun hq' hf
    obtain ⟨hs, -⟩ := h.of_acquire hrun
    have hpage : pool'.frames[f].page = .none := (hs.free_iff f).1 (by simp [putBack])
    exact ((hs.candidate_iff f).1 ((hq'.mem_iff f).1 hf)).1 hpage
  -- the frame comes off the free list while that lasts, and from the front of the queue then
  rcases hfree : pool.free with _ | ⟨d, rest⟩
  · rcases q with _ | ⟨d, q⟩
    · rw [Layout.take_of_nil hfree (line_eq hq)] at htake
      cases htake
    · have hlook := h.table_of_mem_queue hq List.mem_cons_self
      rw [Layout.take_of_line hfree (line_eq hq) hlook] at htake
      cases htake
      obtain ⟨pool', hrun, hq', hlayout⟩ := h.acquire_of_queue hq hfree
      refine ⟨pool', q, hrun, hlayout.trans ?_, hq', hout hrun hq'⟩
      rw [← hfree]
      rfl
  · rw [Layout.take_of_free hfree] at htake
    cases htake
    exact ⟨_, q, acquire_of_free hfree, rfl, hq, hout (acquire_of_free hfree) hq⟩

/-- No frame can be taken, and every frame is guarded. -/
theorem acquire_of_full (h : pool.Sound gs) (hq : pool.replacer.Queues q)
    (htake : pool.layout.take = none) :
    acquire pool = .error (.refused .poolFull) pool ∧ Full gs := by
  rcases hfree : pool.free with _ | ⟨d, rest⟩
  · rcases q with _ | ⟨d, q⟩
    · have hnone : ∀ f, ¬pool.replacer.IsCandidate f := fun f hf =>
        List.not_mem_nil ((hq.mem_iff f).2 hf)
      exact ⟨acquire_of_none hfree hq.victim_nil, h.full_of_none hfree hnone⟩
    · have hlook := h.table_of_mem_queue hq List.mem_cons_self
      rw [Layout.take_of_line hfree (line_eq hq) hlook] at htake
      cases htake
  · rw [Layout.take_of_free hfree] at htake
    cases htake

/-- **There is no frame to be had** exactly when every frame is guarded. -/
theorem take_eq_none_iff (h : pool.Sound gs) (hq : pool.replacer.Queues q) :
    pool.layout.take = none ↔ Full gs := by
  refine ⟨fun htake => (h.acquire_of_full hq htake).2, fun hfull => ?_⟩
  -- every frame is held by a guard, so none is free and none stands in the queue
  have hguarded : ∀ f : Fin n, modesOn gs f ≠ [] := by
    intro f hnil
    obtain ⟨g, hg, hgf⟩ := hfull f
    exact modesOn_eq_nil_iff.1 hnil g hg hgf
  have hfree : pool.free = [] := by
    refine List.eq_nil_iff_forall_not_mem.2 fun f hf => hguarded f ?_
    exact (h.of_no_page ((h.free_iff f).1 hf)).1
  have hline : q = [] := by
    refine List.eq_nil_iff_forall_not_mem.2 fun f hf => hguarded f ?_
    have hpins := ((h.candidate_iff f).1 ((hq.mem_iff f).1 hf)).2
    exact List.length_eq_zero_iff.1 ((h.frame f).pins_eq.symm.trans hpins)
  exact Layout.take_of_nil hfree (by rw [layout, line_eq hq, hline]; rfl)

/-! ## Bringing pages in -/

/-- **A new page** comes into the frame that is taken. When all pages are allocated there is no new
page, and the frame is free. -/
theorem newPage_of_take (h : pool.Sound gs) (hq : pool.replacer.Queues q) {l : Layout n}
    (htake : pool.layout.take = some (f, l)) :
    (∃ p pool', newPage pool = .ok ⟨p, f, .write⟩ pool' ∧ pool'.layout = l.place f p ∧
      ∃ q', pool'.replacer.Queues q') ∨
    (∃ pool', newPage pool = .error (.refused .diskFull) pool' ∧ pool'.layout = l.putBack f ∧
      pool.members = range maxLogicalPages ∧ ∃ q', pool'.replacer.Queues q') := by
  obtain ⟨pool₁, q', hacquire, rfl, hq', hf⟩ := h.acquire_of_take hq htake
  obtain ⟨h₁, hpages, -⟩ := h.of_acquire hacquire
  have hs : pool₁.space.Sound := h₁.space
  rcases hs.allocate_cases with ⟨halloc, hall⟩ | ⟨p, s, halloc, -⟩
  · right
    refine ⟨putBack f pool₁, ?_, rfl, ?_, q', hq'⟩
    · rw [newPage, Action.bind_of_ok hacquire,
        Action.bind_of_error (Action.onHalt_error (onSpace_error halloc))]
    · exact (members_eq_of_pages h.space hs hpages).symm.trans hall
  · left
    let pool₂ : Pool n m := { pool₁ with space := s }
    have hq₂ : pool₂.replacer.Queues q' := hq'
    obtain ⟨pool', hlatch, hlayout, hqueue⟩ :=
      place_eq_ok hq₂ hf p (Block.zero pageSize) true .write
    refine ⟨p, pool', ?_, hlayout, q', hqueue⟩
    rw [newPage, Action.bind_of_ok hacquire,
      Action.bind_of_ok (Action.onHalt_ok (onSpace_ok halloc))]
    exact hlatch

/-- **A page that is fetched** comes into the frame that is taken. -/
theorem fetch_of_take (h : pool.Sound gs) (hq : pool.replacer.Queues q) {l : Layout n}
    (htake : pool.layout.take = some (f, l)) (mode : Mode) (hp : p.val.toNat ∈ pool.members)
    (ht : pool.table[p]? = none) :
    ∃ pool', fetch mode p pool = .ok ⟨p, f, mode⟩ pool' ∧ pool'.layout = l.place f p ∧
      ∃ q', pool'.replacer.Queues q' := by
  obtain ⟨s, hs, ha, hpin⟩ := h.pinPage_of_mem hp ht
  obtain ⟨h₁, -⟩ := (h.counters pool.hits (pool.misses + 1)).space_agrees hs ha
  obtain ⟨pool₂, q', hacquire, rfl, hq', hf⟩ := h₁.acquire_of_take hq htake
  obtain ⟨h₂, hpages, habsent⟩ := h₁.of_acquire hacquire
  have hmem₂ : pool₂.members = s.members := members_eq_of_pages h₁.space h₂.space hpages
  have hp₂ : p.val.toNat ∈ pool₂.members := by
    rw [hmem₂, ha.members_eq]
    exact hp
  obtain ⟨s', hread, -⟩ := h₂.read_eq_ok hp₂ (habsent p ht)
  let pool₃ : Pool n m := { pool₂ with space := s' }
  have hq₃ : pool₃.replacer.Queues q' := hq'
  obtain ⟨pool', hlatch, hlayout, hqueue⟩ := place_eq_ok hq₃ hf p (pool₂.contents p) false mode
  refine ⟨pool', ?_, hlayout, q', hqueue⟩
  have hpin' : pinPage p pool =
      .ok f (install f p (pool₂.contents p) false pool₃) := by
    rw [hpin, Action.bind_of_ok hacquire, Action.bind_of_ok (Action.onHalt_ok hread)]
    rfl
  rw [fetch_of_miss ht, Action.bind_of_ok hpin']
  exact hlatch

/-- **A page is refused** when no frame can be taken for it, and nothing is changed but a
counter. -/
theorem fetch_of_full (h : pool.Sound gs) (hq : pool.replacer.Queues q)
    (htake : pool.layout.take = none) (mode : Mode) (hp : p.val.toNat ∈ pool.members)
    (ht : pool.table[p]? = none) :
    ∃ pool', fetch mode p pool = .error (.refused .poolFull) pool' ∧ Still pool pool' ∧
      pool'.frames = pool.frames ∧ pool'.members = pool.members := by
  obtain ⟨s, hs, ha, hpin⟩ := h.pinPage_of_mem hp ht
  obtain ⟨h₁, -⟩ := (h.counters pool.hits (pool.misses + 1)).space_agrees hs ha
  obtain ⟨hacquire, -⟩ := h₁.acquire_of_full hq htake
  rw [fetch_of_miss ht, Action.bind_of_error (hpin.trans (Action.bind_of_error hacquire))]
  exact ⟨_, rfl, ⟨rfl, rfl, rfl, fun _ => rfl⟩, rfl, ha.members_eq⟩

theorem newPage_of_full (h : pool.Sound gs) (hq : pool.replacer.Queues q)
    (htake : pool.layout.take = none) : newPage pool = .error (.refused .poolFull) pool := by
  rw [newPage, Action.bind_of_error (h.acquire_of_full hq htake).1]

/-- A page that is not allocated is refused before a frame is taken for it. -/
theorem fetch_of_not_mem (h : pool.Sound gs) (mode : Mode) (hp : p.val.toNat ∉ pool.members) :
    ∃ e pool', fetch mode p pool = .error e pool' ∧ Still pool pool' := by
  have ht : pool.table[p]? = none := by
    rcases hlook : pool.table[p]? with _ | f
    · rfl
    · exact absurd (h.mem_of_table hlook) hp
  rw [fetch_of_miss ht]
  by_cases hnone : p = .none
  · subst hnone
    exact ⟨_, pool, Action.bind_of_error (pinPage_none pool), .refl pool⟩
  · obtain ⟨e, s, -, -, -, hpin⟩ := h.pinPage_of_not_mem hnone hp ht
    exact ⟨_, _, Action.bind_of_error hpin, rfl, rfl, rfl, fun _ => rfl⟩

/-! ## Guards on pages in line -/

/-- A page that is fetched from its frame leaves the line. -/
theorem line_of_hit (h : pool.Sound gs) (hq : pool.replacer.Queues q)
    (ht : pool.table[p]? = some f) {mode : Mode}
    (htakes : pool.frames[f].latch.admits mode = true) :
    ∃ pool', fetch mode p pool = .ok ⟨p, f, mode⟩ pool' ∧ Sound pool' (⟨p, f, mode⟩ :: gs) ∧
      pool'.line = pool.line.filter (· ≠ p) ∧ ∃ q', pool'.replacer.Queues q' := by
  obtain ⟨pool', hrun, hs, -⟩ := h.hit_eq_ok ht htakes
  refine ⟨pool', hrun, hs, ?_⟩
  rw [fetch_of_hit ((h.table_iff p f).1 ht).1 ht htakes] at hrun
  have hreplacer : pool'.replacer = pool.replacer.pin f := by
    cases hrun
    rfl
  have hpage : ∀ d : Fin n, d ≠ f → pool'.frames[d].page = pool.frames[d].page := by
    intro d hd
    cases hrun
    rw [getElem_editFrame, if_neg hd]
  obtain ⟨hq', hline⟩ := h.line_pin hq ht hreplacer hpage
  exact ⟨hline, _, hq'⟩

/-- A guard that is given back was the last one when nobody else holds its page. -/
theorem release_pins_iff {g : Guard n} (h : pool.Sound (g :: gs)) :
    pool.frames[g.frame].pins ≠ 0 ∧
      (pool.frames[g.frame].pins - 1 = 0 ↔ ∀ d ∈ gs, d.page ≠ g.page) := by
  have hpins : pool.frames[g.frame].pins = (gs.countP fun d => d.page = g.page) + 1 := by
    rw [(h.frame g.frame).pins_eq, h.length_modesOn (h.table_guard List.mem_cons_self),
      List.countP_cons, if_pos (decide_eq_true rfl)]
  rw [hpins, Nat.add_sub_cancel, List.countP_eq_zero]
  simp

/-- Giving a guard back leaves every page in its frame. -/
theorem release_page {g : Guard n} (h : pool.Sound (g :: gs)) (d : Fin n) :
    (pool.release g).frames[d].page = pool.frames[d].page := by
  rw [release_eq (h.table_guard List.mem_cons_self) h.release_pins_iff.1]
  refine (congrArg Frame.page (getElem_editFrame ..)).trans ?_
  split
  · next hd => rw [hd]; rfl
  · rfl

/-- **The last guard on a page** puts it at the end of the line. Other guards leave the line as it
is. -/
theorem line_release {g : Guard n} (h : pool.Sound (g :: gs)) (hq : pool.replacer.Queues q) :
    (pool.release g).line =
        (if ∀ d ∈ gs, d.page ≠ g.page then pool.line ++ [g.page] else pool.line) ∧
      ∃ q', (pool.release g).replacer.Queues q' := by
  have hguard : g ∈ g :: gs := List.mem_cons_self
  have ht := h.table_guard hguard
  obtain ⟨hpins, hlast⟩ := h.release_pins_iff
  have hreplacer : (pool.release g).replacer = if ∀ d ∈ gs, d.page ≠ g.page then
      pool.replacer.unpin g.frame else pool.replacer := by
    rw [release_eq ht hpins]
    exact if_congr hlast rfl rfl
  by_cases hall : ∀ d ∈ gs, d.page ≠ g.page
  · rw [if_pos hall] at hreplacer ⊢
    have hout : g.frame ∉ q := fun hmem => (h.mem_queue_iff hq ht).1 hmem g hguard rfl
    have hq' : (pool.release g).replacer.Queues (q ++ [g.frame]) :=
      hreplacer ▸ hq.unpin_of_not_mem hout
    refine ⟨?_, _, hq'⟩
    rw [line_eq_of_queues hq' fun d _ => h.release_page d, List.map_append, ← line_eq hq,
      List.map_singleton, (h.guard g hguard).2]
  · rw [if_neg hall] at hreplacer ⊢
    have hq' : (pool.release g).replacer.Queues q := hreplacer ▸ hq
    refine ⟨?_, _, hq'⟩
    rw [line_eq_of_queues hq' fun d _ => h.release_page d, ← line_eq hq]

/-- **A page in line** can be fetched, which takes it out of the line, and is at the end of it when
the guard is given back. -/
theorem line_of_touch (h : pool.Sound gs) (hq : pool.replacer.Queues q) (hp : p ∈ pool.line)
    (mode : Mode) :
    ∃ f pool', fetch mode p pool = .ok ⟨p, f, mode⟩ pool' ∧
      pool'.line = pool.line.filter (· ≠ p) ∧
      (pool'.release ⟨p, f, mode⟩).line = pool.line.filter (· ≠ p) ++ [p] := by
  obtain ⟨⟨f, ht⟩, hnone⟩ := (h.mem_line hq).1 hp
  have htakes : pool.frames[f].latch.admits mode = true := by
    have hlatch := (h.frame f).latch
    rw [h.modesOn_eq_nil ht hnone, Latch.fits_nil_iff] at hlatch
    rw [hlatch]
    rfl
  obtain ⟨pool', hrun, hs, hline, q', hq'⟩ := h.line_of_hit hq ht htakes
  refine ⟨f, pool', hrun, hline, ?_⟩
  rw [(hs.line_release hq').1, if_pos hnone, hline]

end Sound

/-! ## Calls that take pages out of the line -/

/-- Every page is out of the line that was not in it, and those that are in it stand as they did. -/
structure Ebbs (pool pool' : Pool n m) : Prop where
  queues : ∃ q, pool'.replacer.Queues q
  line : pool'.line.Sublist pool.line

theorem Still.ebbs (h : Still pool pool') (hq : pool.replacer.Queues q) : Ebbs pool pool' :=
  ⟨⟨q, h.replacer_eq ▸ hq⟩, h.line_eq ▸ List.Sublist.refl _⟩

theorem Ebbs.still {pool'' : Pool n m} (h : Ebbs pool pool') (hstill : Still pool' pool'') :
    Ebbs pool pool'' :=
  ⟨hstill.replacer_eq ▸ h.queues, hstill.line_eq ▸ h.line⟩

theorem Ebbs.of_layout (hq : ∃ q, pool'.replacer.Queues q) {l : Layout n}
    (hlayout : pool'.layout = l) (hline : l.line.Sublist pool.line) : Ebbs pool pool' := by
  subst hlayout
  exact ⟨hq, hline⟩

theorem Ebbs.refl (hq : pool.replacer.Queues q) : Ebbs pool pool := (Still.refl pool).ebbs hq

/-- A call that keeps the line as it finds it puts no page into it. -/
theorem Ebbs.preserves {α : Type} {act : Action (Pool n m) α}
    (hact : ∀ pool₁, Preserves (Still pool₁) act) : Preserves (Ebbs pool) act := by
  intro pool₁ h
  have hstill := hact pool₁ pool₁ (Still.refl pool₁)
  cases hrun : act pool₁ with
  | ok a pool₂ =>
    rw [hrun] at hstill
    exact h.still hstill
  | error e pool₂ =>
    rw [hrun] at hstill
    exact h.still hstill

namespace Sound

variable (h : pool.Sound gs) (hq : pool.replacer.Queues q)

include h hq

theorem ebbs_newPage : Ebbs pool (newPage.stateAfter pool) := by
  rcases htake : pool.layout.take with _ | ⟨f, l⟩
  · rw [stateAfter_error (h.newPage_of_full hq htake)]
    exact .refl hq
  · have hline := Layout.line_take htake
    rcases h.newPage_of_take hq htake with ⟨p, pool', hrun, hlayout, hq'⟩ |
      ⟨pool', hrun, hlayout, -, hq'⟩
    · rw [stateAfter_ok hrun]
      exact .of_layout hq' hlayout hline
    · rw [stateAfter_error hrun]
      exact .of_layout hq' hlayout hline

theorem ebbs_fetch (mode : Mode) (p : PageId) : Ebbs pool ((fetch mode p).stateAfter pool) := by
  rcases ht : pool.table[p]? with _ | f
  · by_cases hp : p.val.toNat ∈ pool.members
    · rcases htake : pool.layout.take with _ | ⟨f, l⟩
      · obtain ⟨pool', hrun, hstill, -⟩ := h.fetch_of_full hq htake mode hp ht
        rw [stateAfter_error hrun]
        exact hstill.ebbs hq
      · obtain ⟨pool', hrun, hlayout, hq'⟩ := h.fetch_of_take hq htake mode hp ht
        rw [stateAfter_ok hrun]
        exact .of_layout hq' hlayout (Layout.line_take htake)
    · obtain ⟨e, pool', hrun, hstill⟩ := h.fetch_of_not_mem mode hp
      rw [stateAfter_error hrun]
      exact hstill.ebbs hq
  · by_cases htakes : pool.frames[f].latch.admits mode = true
    · obtain ⟨pool', hrun, -, hline, hq'⟩ := h.line_of_hit hq ht htakes
      rw [stateAfter_ok hrun]
      exact ⟨hq', hline ▸ List.filter_sublist⟩
    · rw [stateAfter_error (fetch_of_held (by simpa [isHeld_of_table ht] using htakes))]
      exact .refl hq

/-- A page that is deleted leaves the line. -/
theorem ebbs_delete (p : PageId) : Ebbs pool ((delete p).stateAfter pool) := by
  have hfree : Preserves (Ebbs pool) (onSpace (Space.free p) >>= fun _ => pure true) :=
    Ebbs.preserves fun _ => (still_onSpace _).bind fun _ => preserves_pure _
  by_cases hp : p.isSome = true
  · rcases ht : pool.table[p]? with _ | f
    · rw [stateAfter_congr (delete_of_absent hp ht)]
      refine Preserves.stateAfter ?_ (Ebbs.refl hq)
      refine (Ebbs.preserves fun _ => still_onSpace _).bind fun isFree => ?_
      split
      · exact preserves_pure _
      · exact hfree
    · by_cases hpins : 0 < pool.frames[f].pins
      · rw [stateAfter_error (delete_of_pinned hp ht hpins)]
        exact .refl hq
      · have hpage : ∀ d : Fin n, d ≠ f →
            (pool.discard p f).frames[d].page = pool.frames[d].page := by
          intro d hd
          rw [Pool.discard, getElem_editFrame, if_neg hd]
        have hreplacer : (pool.discard p f).replacer = pool.replacer.pin f := rfl
        obtain ⟨hq', hline⟩ := h.line_pin hq ht hreplacer hpage
        rw [stateAfter_congr (delete_of_unpinned hp ht hpins)]
        exact hfree.stateAfter ⟨⟨_, hq'⟩, hline ▸ List.filter_sublist⟩
  · rw [stateAfter_error (delete_of_none hp)]
    exact .refl hq

theorem ebbs_deallocate (p : PageId) : Ebbs pool ((deallocate p).stateAfter pool) := by
  refine stateAfter_bind (h.ebbs_delete hq p) fun deleted => ?_
  split
  · exact preserves_throw _
  · exact preserves_pure _

end Sound

end Pool

end PageStore
