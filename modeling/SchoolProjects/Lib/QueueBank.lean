import Mathlib.Tactic

/-! A bank of numbered FIFO queues. `push` and `pop` are defined only for an index
of the bank, and `pop` only on a queue that is not empty. Up to order, a push adds
its element to the contents of the bank and a pop takes the front element out. -/

namespace SchoolProjects

/-- The queues of a bank, each with its front element first. -/
abbrev QueueBank (α : Type*) := List (List α)

namespace QueueBank

variable {α : Type*}

def queue (b : QueueBank α) (i : ℤ) : Option (List α) := if i < 0 then none else b[i.toNat]?

def push (b : QueueBank α) (i : ℤ) (x : α) : Option (QueueBank α) :=
  (b.queue i).map fun q => b.set i.toNat (q ++ [x])

/-- Front element and remaining bank. -/
def pop (b : QueueBank α) (i : ℤ) : Option (α × QueueBank α) :=
  match b.queue i with
  | some (x :: q) => some (x, b.set i.toNat q)
  | _ => none

theorem queue_natCast (b : QueueBank α) (i : ℕ) : b.queue i = b[i]? := by
  simp [queue]

theorem queue_eq_some {b : QueueBank α} {i : ℤ} {q : List α} :
    b.queue i = some q ↔ 0 ≤ i ∧ b[i.toNat]? = some q := by
  unfold queue
  split_ifs with h
  · simp; omega
  · simp; omega

theorem queue_isSome (b : QueueBank α) {i : ℤ} (h0 : 0 ≤ i) (h1 : i < b.length) :
    ∃ q, b.queue i = some q := by
  have hi : i.toNat < b.length := by omega
  exact ⟨b[i.toNat], queue_eq_some.mpr ⟨h0, List.getElem?_eq_getElem hi⟩⟩

theorem mem_of_queue {b : QueueBank α} {i : ℤ} {q : List α} (hq : b.queue i = some q) {x : α}
    (hx : x ∈ q) : x ∈ b.flatten :=
  List.mem_flatten.mpr ⟨q, List.mem_of_getElem? (queue_eq_some.mp hq).2, hx⟩

theorem exists_queue_of_mem {b : QueueBank α} {x : α} (hx : x ∈ b.flatten) :
    ∃ i q, i < b.length ∧ b[i]? = some q ∧ x ∈ q := by
  obtain ⟨q, hq, hxq⟩ := List.mem_flatten.mp hx
  obtain ⟨i, hi, rfl⟩ := List.getElem_of_mem hq
  exact ⟨i, b[i], hi, List.getElem?_eq_getElem hi, hxq⟩

/-- The contents of the other queues, on which replacing queue `i` has no effect. -/
theorem exists_rest {b : QueueBank α} {i : ℕ} {q : List α} (hq : b[i]? = some q) :
    ∃ rest, b.flatten.Perm (q ++ rest) ∧ ∀ q', (b.set i q').flatten.Perm (q' ++ rest) := by
  induction b generalizing i with
  | nil => simp at hq
  | cons c b ih =>
    cases i with
    | zero =>
      obtain rfl : c = q := by simpa using hq
      exact ⟨b.flatten, by simp, fun q' => by simp⟩
    | succ i =>
      obtain ⟨rest, h1, h2⟩ := ih (by simpa using hq)
      have swap : ∀ t : List α, (c ++ (t ++ rest)).Perm (t ++ (c ++ rest)) := fun t => by
        simpa only [List.append_assoc] using List.perm_append_comm.append_right rest
      refine ⟨c ++ rest, ?_, fun q' => ?_⟩
      · simpa using (h1.append_left c).trans (swap q)
      · simpa using ((h2 q').append_left c).trans (swap q')

theorem push_eq_some {b b' : QueueBank α} {i : ℤ} {x : α} :
    b.push i x = some b' ↔ ∃ q, b.queue i = some q ∧ b' = b.set i.toNat (q ++ [x]) := by
  simp [push, eq_comm]

theorem push_isSome (b : QueueBank α) (x : α) {i : ℤ} (h0 : 0 ≤ i) (h1 : i < b.length) :
    ∃ b', b.push i x = some b' := by
  obtain ⟨q, hq⟩ := b.queue_isSome h0 h1
  exact ⟨_, push_eq_some.mpr ⟨q, hq, rfl⟩⟩

theorem push_length {b b' : QueueBank α} {i : ℤ} {x : α} (h : b.push i x = some b') :
    b'.length = b.length := by
  obtain ⟨q, -, rfl⟩ := push_eq_some.mp h
  simp

theorem push_perm {b b' : QueueBank α} {i : ℤ} {x : α} (h : b.push i x = some b') :
    b'.flatten.Perm (x :: b.flatten) := by
  obtain ⟨q, hq, rfl⟩ := push_eq_some.mp h
  obtain ⟨rest, h1, h2⟩ := exists_rest (queue_eq_some.mp hq).2
  apply (h2 _).trans
  rw [List.append_assoc]
  exact List.perm_middle.trans (h1.symm.cons x)

/-- Queue by queue, a push appends to queue `i` only. -/
theorem push_get {b b' : QueueBank α} {i : ℤ} {x : α} (h : b.push i x = some b') {k : ℕ}
    {q' : List α} (hk : b'[k]? = some q') :
    (i = k ∧ ∃ q, b[k]? = some q ∧ q' = q ++ [x]) ∨ b[k]? = some q' := by
  obtain ⟨q, hq, rfl⟩ := push_eq_some.mp h
  obtain ⟨h0, hi⟩ := queue_eq_some.mp hq
  by_cases hki : i.toNat = k
  · subst hki
    rw [List.getElem?_set_self' , hi] at hk
    exact Or.inl ⟨by omega, q, hi, by simpa using hk.symm⟩
  · rw [List.getElem?_set_ne hki] at hk
    exact Or.inr hk

theorem pop_eq_some {b b' : QueueBank α} {i : ℤ} {x : α} :
    b.pop i = some (x, b') ↔ ∃ q, b.queue i = some (x :: q) ∧ b' = b.set i.toNat q := by
  unfold pop
  split
  · next y q hq => simp only [hq, Option.some.injEq, Prod.mk.injEq, List.cons.injEq]; aesop
  · next hq =>
    simp only [reduceCtorEq, false_iff, not_exists, not_and]
    exact fun q h _ => hq x q h

theorem pop_length {b b' : QueueBank α} {i : ℤ} {x : α} (h : b.pop i = some (x, b')) :
    b'.length = b.length := by
  obtain ⟨q, -, rfl⟩ := pop_eq_some.mp h
  simp

theorem pop_perm {b b' : QueueBank α} {i : ℤ} {x : α} (h : b.pop i = some (x, b')) :
    b.flatten.Perm (x :: b'.flatten) := by
  obtain ⟨q, hq, rfl⟩ := pop_eq_some.mp h
  obtain ⟨rest, h1, h2⟩ := exists_rest (queue_eq_some.mp hq).2
  exact h1.trans ((h2 q).symm.cons x)

/-- Queue by queue, a pop shortens queue `i` only. -/
theorem pop_get {b b' : QueueBank α} {i : ℤ} {x : α} (h : b.pop i = some (x, b')) {k : ℕ}
    {q' : List α} (hk : b'[k]? = some q') : ∃ q, b[k]? = some q ∧ q' ⊆ q := by
  obtain ⟨q, hq, rfl⟩ := pop_eq_some.mp h
  obtain ⟨h0, hi⟩ := queue_eq_some.mp hq
  by_cases hki : i.toNat = k
  · subst hki
    rw [List.getElem?_set_self', hi] at hk
    obtain rfl : q = q' := by simpa using hk
    exact ⟨_, hi, List.subset_cons_self x q⟩
  · rw [List.getElem?_set_ne hki] at hk
    exact ⟨q', hk, List.Subset.refl _⟩

end QueueBank

end SchoolProjects
