import Mathlib.Data.Finset.Card
import Mathlib.Data.Fintype.Basic
import Mathlib.Data.List.Induction
import PageStore.Proofs.Replacer.Queue

/-!
# Runs of a replacer

A run is a sequence of calls, with any numbers, also such that name no frame. What the replacer
holds after it is told from the calls and their answers: under either policy the candidates are the
frames that wait, those that were unpinned and neither pinned nor chosen since,
`Replacer.isCandidate_after`.

Which of them is chosen is the policy's. `Clock.gives_second_chances` is that for the clock, and
`Lru.refines_queue` says that the other policy cannot be told from a queue.
-/

namespace PageStore

/-! ## Calls -/

/-- What can be asked of a replacer. -/
inductive ReplacerCall where
  | pin (f : Nat)
  | unpin (f : Nat)
  | victim
  deriving DecidableEq

/-- Makes a call. Only a call for a victim is answered with a frame. -/
def ReplacerCall.run {n : Nat} : ReplacerCall → Replacer n → Option (Fin n) × Replacer n
  | pin f, r => (none, r.pin f)
  | unpin f, r => (none, r.unpin f)
  | victim, r => r.victim

namespace Replacer

variable {n : Nat} {r : Replacer n} {calls : List ReplacerCall} {call : ReplacerCall} {f : Fin n}

/-- The replacer after a run. -/
def after (r : Replacer n) (calls : List ReplacerCall) : Replacer n :=
  calls.foldl (fun r call => (call.run r).2) r

/-- The answers of a run. -/
def answers (r : Replacer n) : List ReplacerCall → List (Option (Fin n))
  | [] => []
  | call :: calls => (call.run r).1 :: answers (call.run r).2 calls

theorem after_concat (r : Replacer n) (calls : List ReplacerCall) (call : ReplacerCall) :
    r.after (calls ++ [call]) = (call.run (r.after calls)).2 := by
  rw [after, List.foldl_append]
  rfl

theorem after_append (r : Replacer n) (calls later : List ReplacerCall) :
    r.after (calls ++ later) = (r.after calls).after later := List.foldl_append

theorem answers_concat (r : Replacer n) (calls : List ReplacerCall) (call : ReplacerCall) :
    r.answers (calls ++ [call]) = r.answers calls ++ [(call.run (r.after calls)).1] := by
  induction calls generalizing r with
  | nil => rfl
  | cons first calls ih =>
    rw [List.cons_append, answers, ih]
    rfl

/-! ## Frames that wait -/

/-- Frame `f` was unpinned by a call of the run, and since that call it was neither pinned nor
chosen. -/
def Waits (r : Replacer n) (calls : List ReplacerCall) (f : Fin n) : Prop :=
  ∃ earlier later, calls = earlier ++ .unpin f :: later ∧ .pin f.val ∉ later ∧
    some f ∉ (r.after (earlier ++ [.unpin f])).answers later

theorem not_waits_nil : ¬r.Waits [] f := by
  rintro ⟨earlier, later, h, -⟩
  exact List.append_ne_nil_of_right_ne_nil earlier (List.cons_ne_nil _ _) h.symm

/-- **One more call** of a run. -/
theorem waits_concat : r.Waits (calls ++ [call]) f ↔
    call = .unpin f ∨ r.Waits calls f ∧ call ≠ .pin f ∧ (call.run (r.after calls)).1 ≠ some f := by
  constructor
  · rintro ⟨earlier, later, h, hpin, hchosen⟩
    rcases List.eq_nil_or_concat' later with rfl | ⟨later, last, rfl⟩
    · exact .inl (List.singleton_inj.1 (List.append_inj' h rfl).2)
    · have hcut : calls ++ [call] = (earlier ++ .unpin f :: later) ++ [last] := by
        rw [h, List.append_assoc, List.cons_append]
      obtain ⟨rfl, hlast⟩ := List.append_inj' hcut rfl
      obtain rfl := List.singleton_inj.1 hlast
      rw [List.mem_append, List.mem_singleton, not_or] at hpin
      rw [answers_concat, List.mem_append, List.mem_singleton, not_or, ← after_append,
        List.append_assoc] at hchosen
      exact .inr ⟨⟨earlier, later, rfl, hpin.1, hchosen.1⟩, Ne.symm hpin.2, Ne.symm hchosen.2⟩
  · rintro (rfl | ⟨⟨earlier, later, rfl, hpin, hchosen⟩, hcall, hanswer⟩)
    · exact ⟨calls, [], rfl, List.not_mem_nil, List.not_mem_nil⟩
    · refine ⟨earlier, later ++ [call], by rw [List.append_assoc, List.cons_append], ?_, ?_⟩
      · rw [List.mem_append, List.mem_singleton, not_or]
        exact ⟨hpin, Ne.symm hcall⟩
      · rw [answers_concat, List.mem_append, List.mem_singleton, not_or, ← after_append,
          List.append_assoc]
        exact ⟨hchosen, Ne.symm hanswer⟩

/-- **One call** puts a frame among the candidates, or takes one out. -/
theorem isCandidate_run (r : Replacer n) (call : ReplacerCall) (f : Fin n) :
    (call.run r).2.IsCandidate f ↔
      call = .unpin f ∨ r.IsCandidate f ∧ call ≠ .pin f ∧ (call.run r).1 ≠ some f := by
  cases call with
  | pin k =>
    rcases position_or_le n k with ⟨g, rfl⟩ | hk
    · simp [ReplacerCall.run, isCandidate_pin, Fin.ext_iff, and_comm, eq_comm]
    · have hne : k ≠ f.val := by omega
      simp [ReplacerCall.run, pin_of_le r hk, hne]
  | unpin k =>
    rcases position_or_le n k with ⟨g, rfl⟩ | hk
    · simp [ReplacerCall.run, isCandidate_unpin, Fin.ext_iff, eq_comm]
    · have hne : k ≠ f.val := by omega
      simp [ReplacerCall.run, unpin_of_le r hk, hne]
  | victim =>
    rcases hv : r.victim with ⟨_ | g, r'⟩
    · simp [ReplacerCall.run, hv, (victim_none hv).2]
    · simp [ReplacerCall.run, hv, (victim_some hv).2, and_comm, eq_comm]

/-- **The candidates are the frames that wait**, under either policy. -/
theorem isCandidate_after (policy : Policy) (calls : List ReplacerCall) (f : Fin n) :
    ((empty policy n).after calls).IsCandidate f ↔ (empty policy n).Waits calls f := by
  induction calls using List.reverseRecOn with
  | nil => exact iff_of_false (not_isCandidate_empty policy f) not_waits_nil
  | append_singleton calls call ih => rw [after_concat, waits_concat, isCandidate_run, ih]

/-- The count is the number of the frames that wait. -/
theorem exists_waiting (policy : Policy) (calls : List ReplacerCall) :
    ∃ W : Finset (Fin n), (∀ f, f ∈ W ↔ (empty policy n).Waits calls f) ∧
      ((empty policy n).after calls).size = W.card := by
  refine ⟨((List.finRange n).filter
    fun f => ((empty policy n).after calls).IsCandidate f).toFinset, fun f => ?_, ?_⟩
  · rw [List.mem_toFinset, List.mem_filter, decide_eq_true_iff, isCandidate_after]
    exact and_iff_right (List.mem_finRange f)
  · rw [size_eq, List.countP_eq_length_filter,
      List.toFinset_card_of_nodup ((List.nodup_finRange n).filter _)]

/-- A run does not change the policy. -/
theorem exists_clock (calls : List ReplacerCall) :
    ∃ c : Clock n, (empty .clock n).after calls = .clock c := by
  induction calls using List.reverseRecOn with
  | nil => exact ⟨Clock.empty n, rfl⟩
  | append_singleton calls call ih =>
    obtain ⟨c, hc⟩ := ih
    rw [after_concat, hc]
    cases call with
    | pin f => exact ⟨c.pin f, rfl⟩
    | unpin f => exact ⟨c.unpin f, rfl⟩
    | victim => exact ⟨c.victim.2, rfl⟩

end Replacer

/-! ## The clock -/

/-- **The clock gives second chances**, with any number of frames and after every run of calls. It
counts the frames that wait, and these are its candidates. When none waits, it chooses none, and
nothing changes. Otherwise `GivesUp` says which candidate it chooses and what its sweep leaves, and
the sweep always gets there in the steps that it has. -/
theorem Clock.gives_second_chances (n : Nat) (calls : List ReplacerCall) :
    ∃ c : Clock n, (Replacer.empty .clock n).after calls = .clock c ∧
      (∃ W : Finset (Fin n), (∀ f, f ∈ W ↔ (Replacer.empty .clock n).Waits calls f) ∧
        (∀ f, f ∈ W ↔ c.IsCandidate f) ∧ c.size = W.card) ∧
      (∀ f, n ≤ f → c.pin f = c ∧ c.unpin f = c) ∧
      (c.size = 0 → c.victim = (none, c)) ∧
      (c.size ≠ 0 → ∃ f c', c.victim = (some f, c') ∧ c.sweep (2 * n + 1) = (some f, c') ∧
        c.GivesUp f c') := by
  obtain ⟨c, hc⟩ := Replacer.exists_clock (n := n) calls
  obtain ⟨W, hW, hsize⟩ := Replacer.exists_waiting (n := n) .clock calls
  have hcandidate := Replacer.isCandidate_after (n := n) .clock calls
  rw [hc] at hsize hcandidate
  exact ⟨c, hc, ⟨W, hW, fun f => (hW f).trans (hcandidate f).symm, hsize⟩,
    fun f hf => ⟨c.pin_of_le hf, c.unpin_of_le hf⟩, Clock.victim_of_size_eq_zero,
    Clock.victim_eq_some⟩

/-- Frame 1 is marked again while the hand stands at it, so frame 2 goes first. -/
example : (Replacer.empty .clock 3).answers [.unpin 0, .unpin 1, .unpin 2, .victim, .unpin 1,
    .victim, .victim, .victim] = [none, none, none, some 0, none, some 2, some 1, none] := by
  decide

/-! ## Least recently released -/

namespace ReplacerCall

/-- What a call does to a queue of numbers below `n`, and its answer. -/
def onQueue (n : Nat) : ReplacerCall → List Nat → Option Nat × List Nat
  | pin f, q => (none, q.filter (· ≠ f))
  | unpin f, q => (none, if f < n ∧ f ∉ q then q ++ [f] else q)
  | victim, [] => (none, [])
  | victim, f :: q => (some f, q)

/-- The call is for a frame to become a candidate. -/
def isUnpin : ReplacerCall → Bool
  | unpin _ => true
  | _ => false

/-- The queue after a run. -/
def queueAfter (n : Nat) (calls : List ReplacerCall) : List Nat :=
  calls.foldl (fun q call => (call.onQueue n q).2) []

theorem queueAfter_concat (n : Nat) (calls : List ReplacerCall) (call : ReplacerCall) :
    queueAfter n (calls ++ [call]) = (call.onQueue n (queueAfter n calls)).2 := by
  rw [queueAfter, List.foldl_append]
  rfl

/-! Numbers that name no frame do not stand in a queue of frames, and change nothing there. -/

variable {n k : Nat} (q : List (Fin n)) (f : Fin n)

theorem onQueue_pin :
    (pin f).onQueue n (q.map Fin.val) = (none, (q.filter (· ≠ f)).map Fin.val) := by
  have hkeep : q.filter ((fun k => decide (k ≠ f.val)) ∘ Fin.val) = q.filter (· ≠ f) :=
    List.filter_congr fun g _ => decide_eq_decide.2 (not_congr Fin.ext_iff.symm)
  rw [onQueue, List.filter_map, hkeep]

theorem onQueue_pin_of_le (hk : n ≤ k) :
    (pin k).onQueue n (q.map Fin.val) = (none, q.map Fin.val) := by
  rw [onQueue, List.filter_eq_self.2 fun g hg => decide_eq_true ?_]
  rintro rfl
  obtain ⟨f, -, rfl⟩ := List.mem_map.1 hg
  exact Nat.not_lt.2 hk f.isLt

theorem onQueue_unpin : (unpin f).onQueue n (q.map Fin.val) =
    (none, (if f ∈ q then q else q ++ [f]).map Fin.val) := by
  have hmem := List.mem_map_of_injective (a := f) (l := q) Fin.val_injective
  by_cases hf : f ∈ q
  · rw [onQueue, if_neg fun hc => hc.2 (hmem.2 hf), if_pos hf]
  · rw [onQueue, if_pos ⟨f.isLt, mt hmem.1 hf⟩, if_neg hf, List.map_append]
    rfl

theorem onQueue_unpin_of_le (hk : n ≤ k) :
    (unpin k).onQueue n (q.map Fin.val) = (none, q.map Fin.val) := by
  rw [onQueue, if_neg fun hc => Nat.not_lt.2 hk hc.1]

end ReplacerCall

namespace Lru

open ReplacerCall

variable {n : Nat} {r : Lru n} {q : List (Fin n)}

/-- As many frames are counted as stand in the queue. -/
theorem Queues.size_eq_length (h : r.Queues q) : r.size = q.length := by
  rw [r.size_eq, countP_eq_countP_finRange, List.countP_eq_length_filter]
  refine List.Perm.length_eq ((List.perm_ext_iff_of_nodup
    ((List.nodup_finRange n).filter _) h.nodup).2 fun f => ?_)
  rw [List.mem_filter, h.mem_iff, and_iff_right (List.mem_finRange f)]
  rfl

/-- **One call** does to the replacer what it does to the queue. -/
theorem Queues.run (h : r.Queues q) (call : ReplacerCall) :
    ∃ r' q', (call.run (.lru r)).2 = .lru r' ∧ r'.Queues q' ∧
      call.onQueue n (q.map Fin.val) = ((call.run (.lru r)).1.map Fin.val, q'.map Fin.val) ∧
      r'.next ≤ r.next + if call.isUnpin then 1 else 0 := by
  cases call with
  | pin k =>
    rcases position_or_le n k with ⟨f, rfl⟩ | hk
    · exact ⟨r.pin f, _, rfl, h.pin f, onQueue_pin q f, (r.next_pin f).le⟩
    · exact ⟨r, q, congrArg _ (r.pin_of_le hk), h, onQueue_pin_of_le q hk, Nat.le_refl _⟩
  | unpin k =>
    rcases position_or_le n k with ⟨f, rfl⟩ | hk
    · exact ⟨r.unpin f, _, rfl, h.unpin f, onQueue_unpin q f, r.next_unpin_le f⟩
    · exact ⟨r, q, congrArg _ (r.unpin_of_le hk), h, onQueue_unpin_of_le q hk, Nat.le_succ _⟩
  | victim =>
    rcases q with _ | ⟨f, q⟩
    · have hv := Replacer.Queues.victim_nil (r := .lru r) h
      refine ⟨r, [], ?_, h, ?_, Nat.le_refl _⟩
      · rw [ReplacerCall.run, hv]
      · rw [ReplacerCall.run, hv]
        rfl
    · obtain ⟨hv, hrest⟩ := Replacer.Queues.victim_cons (r := .lru r) h
      refine ⟨r.pin f, q, ?_, hrest, ?_, (r.next_pin f).le⟩
      · rw [ReplacerCall.run, hv]
        rfl
      · rw [ReplacerCall.run, hv]
        rfl

/-- **A run** leaves the queue that it leaves to a plain one. -/
theorem exists_queues (n : Nat) (calls : List ReplacerCall) :
    ∃ (r : Lru n) (q : List (Fin n)), (Replacer.empty .lru n).after calls = .lru r ∧ r.Queues q ∧
      queueAfter n calls = q.map Fin.val ∧ r.next ≤ calls.countP isUnpin := by
  induction calls using List.reverseRecOn with
  | nil => exact ⟨Lru.empty n, [], rfl, queues_empty, rfl, Nat.le_refl _⟩
  | append_singleton calls call ih =>
    obtain ⟨r, q, hr, hq, hqueue, hnext⟩ := ih
    obtain ⟨r', q', hr', hq', hcall, hnext'⟩ := hq.run call
    refine ⟨r', q', ?_, hq', ?_, ?_⟩
    · rw [Replacer.after_concat, hr, hr']
    · rw [queueAfter_concat, hqueue, hcall]
    · rw [List.countP_append, List.countP_singleton]
      exact hnext'.trans (Nat.add_le_add_right hnext _)

/-- **The replacer is a queue**, with any number of frames and after every run of calls: it counts
the frames in the queue, and answers every call as the queue does. No frame stands in the queue
twice. The stamps are below the number of times that a frame was unpinned, so fewer than `2 ^ 64` of
them never make a stamp that does not fit a word of 64 bits. -/
theorem refines_queue (n : Nat) (calls : List ReplacerCall) :
    ∃ r : Lru n, (Replacer.empty .lru n).after calls = .lru r ∧
      (queueAfter n calls).Nodup ∧ (∀ f ∈ queueAfter n calls, f < n) ∧
      r.size = (queueAfter n calls).length ∧
      (∀ call : ReplacerCall,
        (call.run (.lru r)).1.map Fin.val = (call.onQueue n (queueAfter n calls)).1) ∧
      (∀ (f : Fin n) (s : Nat), r.stamps[f] = some s → s < r.next) ∧
      r.next ≤ calls.countP isUnpin := by
  obtain ⟨r, q, hr, hq, hqueue, hnext⟩ := exists_queues n calls
  refine ⟨r, hr, ?_, ?_, ?_, fun call => ?_, hq.fresh, hnext⟩
  · rw [hqueue]
    exact hq.nodup.map Fin.val_injective
  · intro k hk
    rw [hqueue] at hk
    obtain ⟨f, -, rfl⟩ := List.mem_map.1 hk
    exact f.isLt
  · rw [hqueue, List.length_map, hq.size_eq_length]
  · obtain ⟨r', q', -, -, hcall, -⟩ := hq.run call
    rw [hqueue, hcall]

end Lru

end PageStore
