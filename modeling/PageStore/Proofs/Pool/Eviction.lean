import PageStore.Proofs.Pool.Line

/-!
# The page that was let go longest ago

With the LRU replacer a pool that runs out of free frames evicts the page whose last guard was
given back longest ago, among those that nobody holds. When each guard was given back is told from
the calls that were made, without a look into the pool: `OpenPool.LetGo` names the call that took
the last guard off a page. `Pool.EvictsInOrder` is what a pool does with its frames when its pages
leave in a given order, and `OpenPool.evicts_longest_idle` is that this is the order in every state
that calls lead to.

The proof follows the line of pages that may leave. One call takes pages out of the line, or puts
one page at the end of it; that page was held before the call, and no page that was in line before
was. So the line stays in the order of the calls.
-/

namespace PageStore

/-! ## One state -/

namespace Pool

open Finset

variable {n m : Nat} {pool : Pool n m} {gs : List (Guard n)} {q : List (Fin n)}

/-- **Pages leave the pool in the order `Before`**, and no sooner than a frame is needed. -/
structure EvictsInOrder (pool : Pool n m) (gs : List (Guard n)) (Before : PageId → PageId → Prop) :
    Prop where
  /-- the pages in line are those in a frame that nobody holds -/
  mem_line : ∀ p, p ∈ pool.line ↔ (∃ f, pool.table[p]? = some f) ∧ ∀ g ∈ gs, g.page ≠ p
  /-- each is in line once -/
  nodup : pool.line.Nodup
  /-- a page leaves before those behind it -/
  order : pool.line.Pairwise Before
  /-- a new page comes into the frame that is taken for it; when all pages are allocated the call
  is refused, and the frame is free then -/
  on_newPage : ∀ f l, pool.layout.take = some (f, l) →
    (∃ p pool', newPage pool = .ok ⟨p, f, .write⟩ pool' ∧ pool'.layout = l.place f p) ∨
    (∃ pool', newPage pool = .error (.refused .diskFull) pool' ∧ pool'.layout = l.putBack f ∧
      pool.members = range maxLogicalPages)
  /-- so does an allocated page that is in no frame, when it is fetched -/
  on_miss : ∀ f l, pool.layout.take = some (f, l) → ∀ mode p, p.val.toNat ∈ pool.members →
    pool.table[p]? = none →
    ∃ pool', fetch mode p pool = .ok ⟨p, f, mode⟩ pool' ∧ pool'.layout = l.place f p
  /-- no frame can be taken exactly when each has a guard on its page -/
  full_iff : pool.layout.take = none ↔ Full gs
  /-- then a new page is refused, and nothing is changed -/
  on_newPage_full : Full gs → newPage pool = .error (.refused .poolFull) pool
  /-- and so is an allocated page that is in no frame; pages, frames and disk are as they were -/
  on_miss_full : Full gs → ∀ mode p, p.val.toNat ∈ pool.members → pool.table[p]? = none →
    ∃ pool', fetch mode p pool = .error (.refused .poolFull) pool' ∧ pool'.layout = pool.layout ∧
      pool'.frames = pool.frames ∧ pool'.members = pool.members
  /-- flushing a page changes neither where pages are nor the line -/
  on_flush : ∀ p, p ≠ .none → ∃ b pool', flush p pool = .ok b pool' ∧ pool'.layout = pool.layout
  /-- nor does flushing all pages -/
  on_flushAll : ∃ k pool', flushAll pool = .ok k pool' ∧ pool'.layout = pool.layout
  /-- a page in line that is fetched leaves the line, and is at the end of it when the guard is
  given back -/
  on_hit : ∀ mode, ∀ p ∈ pool.line, ∃ f pool', fetch mode p pool = .ok ⟨p, f, mode⟩ pool' ∧
    pool'.line = pool.line.filter (· ≠ p) ∧
    (pool'.release ⟨p, f, mode⟩).line = pool.line.filter (· ≠ p) ++ [p]

/-- A pool whose candidates stand in a queue evicts in the order of its line. -/
theorem Sound.evictsInOrder (h : pool.Sound gs) (hq : pool.replacer.Queues q)
    {Before : PageId → PageId → Prop} (horder : pool.line.Pairwise Before) :
    pool.EvictsInOrder gs Before where
  mem_line p := h.mem_line hq
  nodup := h.nodup_line hq
  order := horder
  on_newPage f l htake := by
    rcases h.newPage_of_take hq htake with ⟨p, pool', hrun, hlayout, -⟩ |
      ⟨pool', hrun, hlayout, hall, -⟩
    · exact .inl ⟨p, pool', hrun, hlayout⟩
    · exact .inr ⟨pool', hrun, hlayout, hall⟩
  on_miss f l htake mode p hp ht := by
    obtain ⟨pool', hrun, hlayout, -⟩ := h.fetch_of_take hq htake mode hp ht
    exact ⟨pool', hrun, hlayout⟩
  full_iff := h.take_eq_none_iff hq
  on_newPage_full hfull := h.newPage_of_full hq ((h.take_eq_none_iff hq).2 hfull)
  on_miss_full hfull mode p hp ht := by
    obtain ⟨pool', hrun, hstill, hkept⟩ :=
      h.fetch_of_full hq ((h.take_eq_none_iff hq).2 hfull) mode hp ht
    exact ⟨pool', hrun, hstill.layout_eq, hkept⟩
  on_flush p hp := by
    obtain ⟨b, pool', hrun, -⟩ := h.flush_eq_ok (PageId.isSome_iff.2 hp)
    exact ⟨b, pool', hrun, ((still_flush p).of_ok (.refl pool) hrun).layout_eq⟩
  on_flushAll := by
    obtain ⟨pool', hrun, -⟩ := h.flushAll_eq_ok
    exact ⟨_, pool', hrun, ((still_flushFrames _).of_ok (.refl pool) hrun).layout_eq⟩
  on_hit mode p hp := h.line_of_touch hq hp mode

end Pool

/-! ## When a page was let go -/

namespace OpenPool

variable {o : OpenPool} {calls : List PoolCall} {call : PoolCall} {p : PageId} {i : Nat}

/-- Somebody holds page `p`. -/
def Holds (o : OpenPool) (p : PageId) : Prop := ∃ g ∈ o.guards, g.page = p

/-- Call `i` of a run gave the last guard on page `p` back: the page was held before the call, and
at no time since. -/
structure LetGo (o : OpenPool) (calls : List PoolCall) (p : PageId) (i : Nat) : Prop where
  lt_length : i < calls.length
  held : (o.after (calls.take i)).Holds p
  idle : ∀ j, i < j → j ≤ calls.length → ¬(o.after (calls.take j)).Holds p

/-- The last guard on page `p` was given back before the last one on page `r`. -/
def LetGoBefore (o : OpenPool) (calls : List PoolCall) (p r : PageId) : Prop :=
  ∃ i j, o.LetGo calls p i ∧ o.LetGo calls r j ∧ i < j

/-- A call that does not lend the page out again leaves it at that. -/
theorem LetGo.concat (h : o.LetGo calls p i) (hidle : ¬(o.after (calls ++ [call])).Holds p) :
    o.LetGo (calls ++ [call]) p i where
  lt_length := by
    rw [List.length_append]
    exact Nat.lt_add_right _ h.lt_length
  held := by
    rw [List.take_append_of_le_length (Nat.le_of_lt h.lt_length)]
    exact h.held
  idle j hij hj := by
    by_cases hlast : j ≤ calls.length
    · rw [List.take_append_of_le_length hlast]
      exact h.idle j hij hlast
    · rw [List.take_of_length_le (by rw [List.length_append, List.length_singleton]; omega)]
      exact hidle

/-- The last call of a run takes the last guard off a page. -/
theorem letGo_concat (hheld : (o.after calls).Holds p)
    (hidle : ¬(o.after (calls ++ [call])).Holds p) : o.LetGo (calls ++ [call]) p calls.length where
  lt_length := by simp
  held := by
    rw [List.take_left]
    exact hheld
  idle j hij hj := by
    rw [List.take_of_length_le (by rw [List.length_append, List.length_singleton]; omega)]
    exact hidle

end OpenPool

/-! ## One call -/

/-- The policy of the pool that is open after a call. -/
def PoolCall.policy (current : Policy) : PoolCall → Policy
  | .reopen config _ _ => config.policy
  | _ => current

/-- The line after a call: pages have left it at most, or a page that was held joined it at the
end. -/
structure OpenPool.Advances (o o' : OpenPool) : Prop where
  queues : ∃ q, o'.pool.replacer.Queues q
  line : o'.pool.line.Sublist o.pool.line ∨
    ∃ p, o.Holds p ∧ o'.pool.line = o.pool.line ++ [p]

namespace OpenPool.Advances

variable {n m : Nat} {pool pool' : Pool n m} {gs gs' : List (Guard n)}

theorem of_ebbs (h : pool.Ebbs pool') : Advances ⟨n, m, pool, gs⟩ ⟨n, m, pool', gs'⟩ :=
  ⟨h.queues, .inl h.line⟩

/-- A call that hands out no guard. -/
theorem of_result {α : Type} {act : Action (Pool n m) α} {reply : α → PoolReply}
    (h : pool.Ebbs (act.stateAfter pool)) :
    Advances ⟨n, m, pool, gs⟩ (PoolReply.ofResult reply gs (act pool)).2 := by
  rw [PoolReply.snd_ofResult]
  exact .of_ebbs h

/-- A call that leaves the line as it is. -/
theorem of_still {α : Type} {act : Action (Pool n m) α} {reply : α → PoolReply} {q : List (Fin n)}
    (h : act.Preserves (Pool.Still pool)) (hq : pool.replacer.Queues q) :
    Advances ⟨n, m, pool, gs⟩ (PoolReply.ofResult reply gs (act pool)).2 :=
  of_result ((h.stateAfter (.refl pool)).ebbs hq)

/-- A call that hands out a guard. -/
theorem of_guard {act : Action (Pool n m) (Guard n)} (h : pool.Ebbs (act.stateAfter pool)) :
    Advances ⟨n, m, pool, gs⟩ (PoolReply.ofGuard gs (act pool)).2 := by
  obtain ⟨gs', hrun⟩ := PoolReply.snd_ofGuard gs act pool
  rw [hrun]
  exact .of_ebbs h

end OpenPool.Advances

/-- A guard that is given back puts its page at the end of the line, if it was the last one. -/
theorem OpenPool.advances_drop {n m : Nat} {pool : Pool n m} {gs : List (Guard n)}
    {q : List (Fin n)} (h : pool.Sound gs) (hq : pool.replacer.Queues q) (i : Nat) :
    Advances ⟨n, m, pool, gs⟩ ((PoolCall.drop i).run ⟨n, m, pool, gs⟩).2 := by
  rcases hi : gs[i]? with _ | g
  · simp only [PoolCall.run, hi]
    exact .of_ebbs (.refl hq)
  · simp only [PoolCall.run, hi]
    have hs := h.perm (Reflects.guard_first hi)
    obtain ⟨hline, hq'⟩ := hs.line_release hq
    refine ⟨hq', ?_⟩
    split at hline
    · exact .inr ⟨g.page, ⟨g, List.mem_of_getElem? hi, rfl⟩, hline⟩
    · exact .inl (hline ▸ List.Sublist.refl _)

/-- A pool that is opened again with the LRU replacer has no pages in line. -/
theorem OpenPool.queues_reopen {o : OpenPool} (h : o.pool.Sound o.guards) {config : PoolConfig}
    {disk : SpaceConfig} (accepted : config.validate = .ok () ∧ disk.validate = .ok ())
    (hlru : config.policy = .lru) :
    ((PoolCall.reopen config disk accepted).run o).2.pool.replacer.Queues [] := by
  obtain ⟨o', hstart, -⟩ := OpenPool.start_stop h accepted.1 accepted.2
  have hrun : (PoolCall.reopen config disk accepted).run o = (.ok .done, o') := by
    simp only [PoolCall.run, hstart]
  obtain ⟨space, rfl⟩ := of_start hstart
  rw [hrun]
  change (Replacer.empty config.policy config.poolSize).Queues []
  rw [hlru]
  exact Replacer.queues_empty

/-- **One call** takes pages out of the line, or puts one that was held at the end of it, as long as
the pool is not opened again. -/
theorem OpenPool.advances {o : OpenPool} (h : o.pool.Sound o.guards) {current : Policy}
    (hcurrent : current = .lru → ∃ q, o.pool.replacer.Queues q) {call : PoolCall}
    (hlru : call.policy current = .lru) :
    (call.run o).2.pool.replacer.Queues [] ∨ current = .lru ∧ o.Advances (call.run o).2 := by
  obtain ⟨n, m, pool, gs⟩ := o
  -- every other call finds the queue and keeps the policy
  have stays : ∀ {o' : OpenPool}, current = .lru →
      (∀ q, pool.replacer.Queues q → Advances ⟨n, m, pool, gs⟩ o') →
      o'.pool.replacer.Queues [] ∨ current = .lru ∧ Advances ⟨n, m, pool, gs⟩ o' := by
    intro o' hsame hadvances
    obtain ⟨q, hq⟩ := hcurrent hsame
    exact .inr ⟨hsame, hadvances q hq⟩
  cases call with
  | reopen config disk accepted => exact .inl (queues_reopen h accepted hlru)
  | newPage => exact stays hlru fun q hq => .of_guard (Pool.Sound.ebbs_newPage h hq)
  | fetch mode p => exact stays hlru fun q hq => .of_guard (Pool.Sound.ebbs_fetch h hq mode p)
  | edit i change =>
    refine stays hlru fun q hq => ?_
    rcases hi : gs[i]? with _ | ⟨p, f, _ | _⟩
    · simp only [PoolCall.run, hi]
      exact .of_ebbs (.refl hq)
    · simp only [PoolCall.run, hi]
      exact .of_ebbs (.refl hq)
    · simp only [PoolCall.run, hi]
      exact .of_still (Pool.still_edit _ change) hq
  | drop i => exact stays hlru fun q hq => advances_drop h hq i
  | flush p => exact stays hlru fun q hq => .of_still (Pool.still_flush p) hq
  | flushAll => exact stays hlru fun q hq => .of_still (Pool.still_flushFrames _) hq
  | delete p => exact stays hlru fun q hq => .of_result (Pool.Sound.ebbs_delete h hq p)
  | allocate => exact stays hlru fun q hq => .of_still (Pool.still_onSpace _) hq
  | deallocate p => exact stays hlru fun q hq => .of_result (Pool.Sound.ebbs_deallocate h hq p)

/-! ## Runs -/

namespace OpenPool

variable {o : OpenPool} {calls : List PoolCall} {call : PoolCall}

/-- After a run, the pages that may leave stand in line in the order in which they were let go. -/
structure Ordered (o : OpenPool) (calls : List PoolCall) : Prop where
  /-- its candidates stand in a queue -/
  queues : ∃ q, (o.after calls).pool.replacer.Queues q
  /-- the pages in line were let go -/
  letGo : ∀ p ∈ (o.after calls).pool.line, ∃ i, o.LetGo calls p i
  /-- the first of them longest ago -/
  order : (o.after calls).pool.line.Pairwise (o.LetGoBefore calls)

/-- Nobody holds a page in line. -/
theorem not_holds_of_mem_line (h : o.pool.Sound o.guards) (hq : ∃ q, o.pool.replacer.Queues q)
    {p : PageId} (hp : p ∈ o.pool.line) : ¬o.Holds p := by
  obtain ⟨q, hq⟩ := hq
  rintro ⟨g, hg, hgp⟩
  exact ((h.mem_line hq).1 hp).2 g hg hgp

/-- A page that stays idle was let go by the same call as before. -/
theorem LetGoBefore.concat {p r : PageId} (h : o.LetGoBefore calls p r)
    (hp : ¬(o.after (calls ++ [call])).Holds p) (hr : ¬(o.after (calls ++ [call])).Holds r) :
    o.LetGoBefore (calls ++ [call]) p r := by
  obtain ⟨i, j, hi, hj, hlt⟩ := h
  exact ⟨i, j, hi.concat hp, hj.concat hr, hlt⟩

/-- **One more call** keeps the line in order. -/
theorem Ordered.concat (h : o.Ordered calls) (h' : (o.after (calls ++ [call])).pool.Sound
    (o.after (calls ++ [call])).guards)
    (hadvances : (o.after calls).Advances (o.after (calls ++ [call]))) :
    o.Ordered (calls ++ [call]) := by
  have hidle : ∀ p ∈ (o.after (calls ++ [call])).pool.line, ¬(o.after (calls ++ [call])).Holds p :=
    fun p hp => not_holds_of_mem_line h' hadvances.queues hp
  rcases hadvances.line with hsub | ⟨p, hheld, hline⟩
  · -- no page joins the line, so every page of it was let go by an earlier call
    refine ⟨hadvances.queues, fun p hp => ?_, ?_⟩
    · obtain ⟨i, hi⟩ := h.letGo p (hsub.subset hp)
      exact ⟨i, hi.concat (hidle p hp)⟩
    · refine (h.order.sublist hsub).imp_of_mem fun hp hr hbefore => ?_
      exact hbefore.concat (hidle _ hp) (hidle _ hr)
  · -- the page that joins was let go by the last call, and the others before
    have hlast : o.LetGo (calls ++ [call]) p calls.length :=
      letGo_concat hheld (hidle p (by rw [hline]; simp))
    have hold : ∀ r ∈ (o.after calls).pool.line, ¬(o.after (calls ++ [call])).Holds r :=
      fun r hr => hidle r (by rw [hline]; exact List.mem_append_left _ hr)
    refine ⟨hadvances.queues, fun r hr => ?_, ?_⟩
    · rw [hline] at hr
      rcases List.mem_append.1 hr with hr | hr
      · obtain ⟨i, hi⟩ := h.letGo r hr
        exact ⟨i, hi.concat (hold r hr)⟩
      · rw [List.mem_singleton.1 hr]
        exact ⟨calls.length, hlast⟩
    · rw [hline]
      refine List.pairwise_append.2 ⟨?_, List.pairwise_singleton _ p, fun r hr d hd => ?_⟩
      · refine h.order.imp_of_mem fun hr hd hbefore => ?_
        exact hbefore.concat (hold _ hr) (hold _ hd)
      · obtain ⟨i, hi⟩ := h.letGo r hr
        rw [List.mem_singleton.1 hd]
        exact ⟨i, calls.length, hi.concat (hold r hr), hlast, hi.lt_length⟩

/-- An empty line is in order. -/
theorem ordered_of_nil (hq : (o.after calls).pool.replacer.Queues []) : o.Ordered calls := by
  have hline : (o.after calls).pool.line = [] := Pool.line_eq hq
  refine ⟨⟨[], hq⟩, fun p hp => ?_, ?_⟩
  · rw [hline] at hp
    cases hp
  · rw [hline]
    exact .nil

/-- **Every run of calls** leaves the pages in line in the order in which they were let go, if the
pool that is open then has the LRU replacer. -/
theorem ordered_after {l : Ledger} (h : o.Reflects l) {policy : Policy}
    (hq : policy = .lru → o.pool.replacer.Queues []) (calls : List PoolCall)
    (hlru : calls.foldl PoolCall.policy policy = .lru) : o.Ordered calls := by
  -- from the last call back: what one call does to the line is known from the state before it
  induction calls using List.reverseRecOn with
  | nil => exact ordered_of_nil (hq hlru)
  | append_singleton calls call ih =>
    rw [List.foldl_append] at hlru
    have hsound := sound_after h calls
    have hlast := advances hsound (fun hcurrent => (ih hcurrent).queues) hlru
    rw [← after_concat] at hlast
    rcases hlast with hempty | ⟨hcurrent, hadvances⟩
    · exact ordered_of_nil hempty
    · exact (ih hcurrent).concat (sound_after h (calls ++ [call])) hadvances

/-- **A pool with the LRU replacer evicts the page that was let go longest ago.** On a new file,
with any number of frames, and after every run of calls, as long as the pool that is open then has
the LRU replacer: the pages in line were all let go, and they leave in the order in which they
were. -/
theorem evicts_longest_idle (n : Nat) (policy : Policy) {disk : SpaceConfig}
    (hdisk : disk.validate = .ok ()) {v : Volume} (hv : v.openFile = .ok {})
    {calls : List PoolCall} (hlru : calls.foldl PoolCall.policy policy = .lru) :
    ∃ space, Space.mount disk v = .ok space ∧
      let start : OpenPool := ⟨n, _, Pool.empty n policy space, []⟩
      let o := start.after calls
      o.pool.EvictsInOrder o.guards (start.LetGoBefore calls) ∧
        ∀ p ∈ o.pool.line, ∃ i, start.LetGo calls p i := by
  obtain ⟨space, hmount, hs, -, -⟩ := Space.Sound.mount_fresh hdisk hv
  refine ⟨space, hmount, ?_⟩
  let start : OpenPool := ⟨n, _, Pool.empty n policy space, []⟩
  have hstart : start.Reflects ⟨fun _ => none, []⟩ :=
    reflects_of_sound (Pool.sound_empty hs n policy).1
  have hq : policy = .lru → start.pool.replacer.Queues [] := by
    rintro rfl
    exact Replacer.queues_empty
  obtain ⟨⟨q, hqueues⟩, hletGo, horder⟩ := ordered_after hstart hq calls hlru
  exact ⟨(sound_after hstart calls).evictsInOrder hqueues horder, hletGo⟩

/-- A pool with the clock is opened again with the LRU replacer and two frames. Page 0 is let go
before page 1, and flushed after that, so it is the first to leave. -/
theorem evicts_longest_idle_two : ∃ space, Space.mount ⟨1⟩ .missing = .ok space ∧
    let start : OpenPool := ⟨3, _, Pool.empty 3 .clock space, []⟩
    let calls : List PoolCall := [.newPage, .reopen ⟨2, .lru⟩ ⟨1⟩ ⟨rfl, rfl⟩, .newPage,
      .fetch .read ⟨0⟩, .drop 0, .drop 0, .flush ⟨0⟩]
    let o := start.after calls
    o.pool.EvictsInOrder o.guards (start.LetGoBefore calls) ∧
      ∀ p ∈ o.pool.line, ∃ i, start.LetGo calls p i :=
  @evicts_longest_idle 3 .clock ⟨1⟩ rfl .missing rfl _ rfl

end OpenPool

end PageStore
