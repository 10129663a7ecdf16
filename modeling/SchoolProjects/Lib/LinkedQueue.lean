import SchoolProjects.Lib.Heap

/-! FIFO queues as singly linked heap nodes: a chain of locations along `next`, and the list of
the values that its nodes hold. -/

namespace SchoolProjects.LinkedQueue

variable {α β : Type*} {next : α → Option ℕ}

/-- The walk from `f` along `next` visits exactly `q`, in order, and ends at null. -/
def Chain (next : α → Option ℕ) (h : Heap α) : Option ℕ → List ℕ → Prop
  | f, [] => f = none
  | f, a :: q => f = some a ∧ ∃ n, (h.read a).map next = some n ∧ Chain next h n q

theorem Chain.first_eq {h : Heap α} {f : Option ℕ} {q : List ℕ} (hc : Chain next h f q) :
    f = q.head? := by
  cases q with
  | nil => exact hc
  | cons a q => exact hc.1

theorem Chain.read_isSome {h : Heap α} {f : Option ℕ} {q : List ℕ} (hc : Chain next h f q)
    {a : ℕ} (ha : a ∈ q) : (h.read a).isSome := by
  induction q generalizing f with
  | nil => simp at ha
  | cons b q ih =>
    obtain ⟨-, n, hn, ht⟩ := hc
    rcases List.mem_cons.mp ha with rfl | ha
    · obtain ⟨x, hx, -⟩ := Option.map_eq_some_iff.mp hn
      simp [hx]
    · exact ih ht ha

/-- There is one chain from a location. -/
theorem Chain.unique {h : Heap α} {f : Option ℕ} {q q' : List ℕ} (hc : Chain next h f q)
    (hc' : Chain next h f q') : q = q' := by
  induction q generalizing f q' with
  | nil =>
    obtain rfl : f = none := hc
    cases q' with
    | nil => rfl
    | cons b q' => cases hc'.1
  | cons a q ih =>
    obtain ⟨rfl, n, hn, hq⟩ := hc
    cases q' with
    | nil => cases hc'
    | cons b q' =>
      obtain ⟨hab, n', hn', hq'⟩ := hc'
      obtain rfl := Option.some.inj hab
      obtain rfl := Option.some.inj (hn.symm.trans hn')
      rw [ih hq hq']

/-- A chain depends on the links of its own nodes only. -/
theorem Chain.frame {h h' : Heap α} {f : Option ℕ} {q : List ℕ} (hc : Chain next h f q)
    (hf : ∀ a ∈ q, (h'.read a).map next = (h.read a).map next) : Chain next h' f q := by
  induction q generalizing f with
  | nil => exact hc
  | cons a q ih =>
    obtain ⟨ha, n, hn, ht⟩ := hc
    exact ⟨ha, n, (hf a List.mem_cons_self).trans hn,
      ih ht fun b hb => hf b (List.mem_cons_of_mem _ hb)⟩

/-- Linking the last node to a new one that ends the chain. -/
theorem Chain.snoc {h h' : Heap α} {f : Option ℕ} {q : List ℕ} {l a : ℕ}
    (hc : Chain next h f (q ++ [l]))
    (hf : ∀ b ∈ q, (h'.read b).map next = (h.read b).map next)
    (hl : (h'.read l).map next = some (some a)) (ha : (h'.read a).map next = some none) :
    Chain next h' f (q ++ [l] ++ [a]) := by
  induction q generalizing f with
  | nil => exact ⟨hc.1, some a, hl, rfl, none, ha, rfl⟩
  | cons b q ih =>
    obtain ⟨hb, n, hn, ht⟩ := hc
    exact ⟨hb, n, (hf b List.mem_cons_self).trans hn,
      ih ht fun c hc => hf c (List.mem_cons_of_mem _ hc)⟩

/-- The nodes `q` of the chain from `f` on hold the values `vs`. -/
def Holds (next : α → Option ℕ) (value : α → β) (h : Heap α) (f : Option ℕ) (q : List ℕ)
    (vs : List β) : Prop :=
  Chain next h f q ∧ q.map (fun a => (h.read a).map value) = vs.map some

section Holds

variable {value : α → β} {h h' : Heap α} {f : Option ℕ} {q : List ℕ} {vs : List β}
  {a : ℕ} {x : α}

theorem holds_nil : Holds next value h f [] vs ↔ f = none ∧ vs = [] := by
  constructor
  · rintro ⟨hf, hvs⟩
    exact ⟨hf, List.map_eq_nil_iff.mp hvs.symm⟩
  · rintro ⟨rfl, rfl⟩
    exact ⟨rfl, rfl⟩

theorem holds_cons : Holds next value h f (a :: q) vs ↔ f = some a ∧ ∃ x vs',
    h.read a = some x ∧ vs = value x :: vs' ∧ Holds next value h (next x) q vs' := by
  constructor
  · rintro ⟨⟨hf, n, hn, hq⟩, hvs⟩
    obtain ⟨x, hx, rfl⟩ := Option.map_eq_some_iff.mp hn
    cases vs with
    | nil => simp at hvs
    | cons v vs =>
      rw [List.map_cons, List.map_cons, hx, List.cons.injEq, Option.map_some,
        Option.some.injEq] at hvs
      exact ⟨hf, x, vs, hx, by rw [hvs.1], hq, hvs.2⟩
  · rintro ⟨hf, x, vs, hx, rfl, hq, hvs⟩
    exact ⟨⟨hf, next x, by rw [hx, Option.map_some], hq⟩, by
      rw [List.map_cons, List.map_cons, hx, hvs, Option.map_some]⟩

theorem Holds.frame (hq : Holds next value h f q vs) (hread : ∀ a ∈ q, h'.read a = h.read a) :
    Holds next value h' f q vs := by
  refine ⟨hq.1.frame fun a ha => by rw [hread a ha], ?_⟩
  rw [← hq.2]
  exact List.map_congr_left fun a ha => by rw [hread a ha]

/-- A node in front of nodes that stay as they are. -/
theorem Holds.cons (hx : h'.read a = some x) (hread : ∀ b ∈ q, h'.read b = h.read b)
    (hq : Holds next value h (next x) q vs) :
    Holds next value h' (some a) (a :: q) (value x :: vs) :=
  holds_cons.mpr ⟨rfl, x, vs, hx, rfl, hq.frame hread⟩

/-- Distinct nodes are no more than the locations handed out. -/
theorem Holds.length_le (hq : Holds next value h f q vs) (hnd : q.Nodup) : q.length ≤ h.fresh :=
  Heap.length_le_fresh hnd fun _ ha => hq.1.read_isSome ha

end Holds

end SchoolProjects.LinkedQueue
