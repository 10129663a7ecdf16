import SchoolProjects.Lib.Interleaving
import SchoolProjects.Lib.MachineInt

/-! Matrix multiplication with threads. `main` creates the threads one after the other and
then joins them; a step of a thread is one round of the innermost loop, or the store of one
entry, or the move to the next row. The size `S` is a parameter. Row and column numbers are
exact, as the arrays would not fit in memory otherwise; the sums are those of type `int`. -/

namespace SchoolProjects.MatrixMultiplication

/-- The entries of an array `int A[S][S]`. -/
abbrev Entries := ℕ → ℕ → ℤ

/-- `fillArray`; `rand` is the number that the call for an entry gives. -/
def fillArray (rand : ℕ → ℕ → ℕ) : Entries := fun i j => rand i j % 9 + 1

def findThreadCount (S : ℕ) : ℕ :=
  if S % 7 = 0 then 7
  else if S % 6 = 0 then 6
  else if S % 5 = 0 then 5
  else if S % 4 = 0 then 4
  else if S % 3 = 0 then 3
  else if S % 2 = 0 then 2
  else 7

/-- The local variables of `multiply`. -/
structure Thread where
  i : ℕ
  j : ℕ
  k : ℕ
  total : ℤ

/-- Row `i` and column `j`, before the loop over `k`. -/
def Thread.enter (i j : ℕ) : Thread := ⟨i, j, 0, 0⟩

/-- The array `C` and, to say who computes what, the thread, the row and the column of every
store into it. -/
structure Product (T : ℕ) where
  C : Entries
  stores : List (Fin T × ℕ × ℕ)

def Product.store {T : ℕ} (g : Product T) (sect : Fin T) (i j : ℕ) (total : ℤ) : Product T :=
  ⟨Function.update g.C i (Function.update (g.C i) j total), (sect, i, j) :: g.stores⟩

section Threads

variable (S T : ℕ) (A B : Entries)

def start (sect : ℕ) : ℕ := sect * (S / T)

def finish (sect : ℕ) : ℕ := (sect + 1) * (S / T)

/-- A step of `multiply`; `none` when it has returned. -/
def multiply (sect : Fin T) (t : Thread) (g : Product T) : Option (Thread × Product T) :=
  if t.i < finish S T sect then
    if t.j < S then
      if t.k < S then
        some ({ t with total := int32 (t.total + A t.i t.k * B t.k t.j), k := t.k + 1 }, g)
      else some (.enter t.i (t.j + 1), g.store sect t.i t.j t.total)
    else some (.enter (t.i + 1) 0, g)
  else none

/-- How many threads `main` has created and joined, and the threads. -/
structure System where
  created : ℕ
  joined : ℕ
  pool : Pool (Fin T) Thread (Product T)

/-- Who takes a step. -/
inductive Actor where
  | main
  | thread (sect : Fin T)

variable {T}

/-- A step of `main` or of a thread that is created. -/
def System.step (s : System T) : Actor T → Option (System T)
  | .main =>
    if s.created < T then some { s with created := s.created + 1 }
    else if h : s.joined < T then
      if (s.pool.threads ⟨s.joined, h⟩).i < finish S T s.joined then none
      else some { s with joined := s.joined + 1 }
    else none
  | .thread sect =>
    if sect < s.created then
      (s.pool.step (multiply S T A B) sect).map fun pool => { s with pool := pool }
    else none

variable (T)

/-- Before the first `pthread_create`; a thread that is not created yet has its first values. -/
def System.init : System T :=
  ⟨0, 0, fun sect => .enter (start S T sect) 0, ⟨fun _ _ => 0, []⟩⟩

/-- `main` has joined all threads after the steps `tr`. -/
def Finished (tr : List (Actor T)) (s : System T) : Prop :=
  Transition.Run (Transition.ofOption (System.step S A B)) (System.init S T) tr s ∧ s.joined = T

end Threads

/-- One thread stores all entries of the row, each once, and no other stores any. -/
def RowOnce (S : ℕ) {T : ℕ} (stores : List (Fin T × ℕ × ℕ)) (i : ℕ) : Prop :=
  ∃ sect, (∀ j < S, stores.count (sect, i, j) = 1) ∧
    ∀ sect' j, (sect', i, j) ∈ stores → sect' = sect

/-- The entry of the product. -/
def entry (S : ℕ) (A B : Entries) (i j : ℕ) : ℤ := ∑ k ∈ Finset.range S, A i k * B k j

section Rows

variable {S T : ℕ} {A B : Entries}

@[simp] theorem Product.store_stores (g : Product T) (sect : Fin T) (i j : ℕ) (total : ℤ) :
    (g.store sect i j total).stores = (sect, i, j) :: g.stores := rfl

theorem Product.store_self (g : Product T) (sect : Fin T) (i j : ℕ) (total : ℤ) :
    (g.store sect i j total).C i j = total := by
  simp [Product.store]

theorem Product.store_ne (g : Product T) (sect : Fin T) {i j i' j' : ℕ} (total : ℤ)
    (h : ¬ (i' = i ∧ j' = j)) : (g.store sect i j total).C i' j' = g.C i' j' := by
  by_cases hi : i' = i
  · subst hi
    have hj : j' ≠ j := fun hj => h ⟨rfl, hj⟩
    simp [Product.store, hj]
  · simp [Product.store, hi]

/-- The rows of two threads are apart. -/
theorem owner_unique {sect sect' i : ℕ} (h : start S T sect ≤ i) (h' : i < finish S T sect)
    (hs : start S T sect' ≤ i) (hs' : i < finish S T sect') : sect = sect' :=
  (Nat.div_eq_of_lt_le h h').symm.trans (Nat.div_eq_of_lt_le hs hs')

/-- What the steps of a thread can be. -/
theorem multiply_cases {sect : Fin T} {t t' : Thread} {g g' : Product T}
    (h : multiply S T A B sect t g = some (t', g')) : t.i < finish S T sect ∧
      ((t.j < S ∧ t.k < S ∧ g' = g ∧ t' = { t with
          total := int32 (t.total + A t.i t.k * B t.k t.j), k := t.k + 1 }) ∨
        (t.j < S ∧ S ≤ t.k ∧ t' = .enter t.i (t.j + 1) ∧ g' = g.store sect t.i t.j t.total) ∨
        (S ≤ t.j ∧ t' = .enter (t.i + 1) 0 ∧ g' = g)) := by
  unfold multiply at h
  split_ifs at h with hi hj hk
  · cases h
    exact ⟨hi, .inl ⟨hj, hk, rfl, rfl⟩⟩
  · cases h
    exact ⟨hi, .inr (.inl ⟨hj, not_lt.1 hk, rfl, rfl⟩)⟩
  · cases h
    exact ⟨hi, .inr (.inr ⟨not_lt.1 hj, rfl, rfl⟩)⟩

theorem multiply_eq_none {sect : Fin T} {t : Thread} {g : Product T} :
    multiply S T A B sect t g = none ↔ finish S T sect ≤ t.i := by
  unfold multiply
  split_ifs with hi <;> simp <;> omega

/-- The entries of its rows that a thread has stored. -/
def Thread.Done (S T : ℕ) (t : Thread) (sect i j : ℕ) : Prop :=
  start S T sect ≤ i ∧ (i < t.i ∨ i = t.i ∧ j < t.j) ∧ j < S

theorem Thread.done_store {t : Thread} {sect i j : ℕ} (hs : start S T sect ≤ t.i)
    (hj : t.j < S) : (Thread.enter t.i (t.j + 1)).Done S T sect i j ↔
      (i = t.i ∧ j = t.j) ∨ t.Done S T sect i j := by
  simp only [Thread.Done, Thread.enter]
  omega

theorem Thread.done_next_row {t : Thread} {sect i j : ℕ} (hj : S ≤ t.j) :
    (Thread.enter (t.i + 1) 0).Done S T sect i j ↔ t.Done S T sect i j := by
  simp only [Thread.Done, Thread.enter]
  omega

/-- What holds of a thread and the product at any time. -/
structure Thread.Inv (S : ℕ) {T : ℕ} (A B : Entries) (sect : Fin T) (t : Thread) (g : Product T) :
    Prop where
  start_le : start S T sect ≤ t.i
  le_finish : t.i ≤ finish S T sect
  at_end : finish S T sect ≤ t.i → t.j = 0
  k_le : t.k ≤ S
  total : t.total = int32 (∑ k ∈ Finset.range t.k, A t.i k * B k t.j)
  stored : ∀ i j, (sect, i, j) ∈ g.stores ↔ t.Done S T sect i j
  value : ∀ i j, t.Done S T sect i j → g.C i j = int32 (entry S A B i j)
  nodup : g.stores.Nodup

/-- A thread stores in its own rows. -/
theorem Thread.Inv.lt_finish {sect : Fin T} {t : Thread} {g : Product T}
    (h : t.Inv S A B sect g) {i j : ℕ} (hd : t.Done S T sect i j) : i < finish S T sect := by
  have hle := h.le_finish
  obtain ⟨-, hi | ⟨hi, hj⟩, -⟩ := hd
  · omega
  · by_contra hge
    have := h.at_end (by omega)
    omega

theorem Thread.inv_enter (sect : Fin T) :
    (Thread.enter (start S T sect) 0).Inv S A B sect ⟨fun _ _ => 0, []⟩ where
  start_le := le_rfl
  le_finish := Nat.mul_le_mul_right _ (Nat.le_succ _)
  at_end := fun _ => rfl
  k_le := Nat.zero_le _
  total := rfl
  stored := by
    intro i j
    simp only [List.not_mem_nil, Thread.Done, Thread.enter, false_iff]
    omega
  value := by
    rintro i j ⟨hs, hi, -⟩
    simp only [Thread.enter] at hi
    omega
  nodup := List.nodup_nil

/-- A thread's own step. -/
theorem Thread.Inv.own {sect : Fin T} {t t' : Thread} {g g' : Product T}
    (h : t.Inv S A B sect g) (hs : multiply S T A B sect t g = some (t', g')) :
    t'.Inv S A B sect g' := by
  obtain ⟨hi, ⟨hj, hk, rfl, rfl⟩ | ⟨hj, hk, rfl, rfl⟩ | ⟨hj, rfl, rfl⟩⟩ := multiply_cases hs
  · -- one more product
    exact { h with
      k_le := hk
      total := by
        simp only
        rw [Finset.sum_range_succ, h.total, int32_add_int32] }
  · -- the store
    have hkS : t.k = S := le_antisymm h.k_le hk
    have hnew : (sect, t.i, t.j) ∉ g.stores := by
      rw [h.stored, Thread.Done]
      omega
    refine { start_le := h.start_le, le_finish := h.le_finish, k_le := Nat.zero_le _
             at_end := fun hge => absurd hi (not_lt.2 hge), total := rfl
             nodup := List.nodup_cons.2 ⟨hnew, h.nodup⟩, stored := ?_, value := ?_ }
    · intro i j
      rw [Thread.done_store h.start_le hj, Product.store_stores, List.mem_cons, h.stored]
      simp
    · intro i j hd
      by_cases hij : i = t.i ∧ j = t.j
      · obtain ⟨rfl, rfl⟩ := hij
        rw [Product.store_self, h.total, hkS, entry]
      · rw [Product.store_ne _ _ _ hij]
        exact h.value i j (((Thread.done_store h.start_le hj).1 hd).resolve_left hij)
  · -- the next row
    refine { start_le := h.start_le.trans (Nat.le_succ _), le_finish := hi, k_le := Nat.zero_le _
             at_end := fun _ => rfl, total := rfl, nodup := h.nodup, stored := ?_, value := ?_ }
    · intro i j
      rw [Thread.done_next_row hj, h.stored]
    · intro i j hd
      exact h.value i j ((Thread.done_next_row hj).1 hd)

/-- A step of another thread. -/
theorem Thread.Inv.other {sect sect' : Fin T} {t u u' : Thread} {g g' : Product T}
    (hne : sect ≠ sect') (h : t.Inv S A B sect g) (hu : u.Inv S A B sect' g)
    (hs : multiply S T A B sect' u g = some (u', g')) : t.Inv S A B sect g' := by
  have hnodup := (hu.own hs).nodup
  obtain ⟨hi, ⟨-, -, rfl, rfl⟩ | ⟨hj, -, rfl, rfl⟩ | ⟨-, rfl, rfl⟩⟩ := multiply_cases hs
  · exact h
  · refine { h with nodup := hnodup, stored := ?_, value := ?_ }
    · intro i j
      rw [Product.store_stores, List.mem_cons, h.stored]
      simp [hne]
    · intro i j hd
      rw [Product.store_ne _ _ _ ?_, h.value i j hd]
      rintro ⟨rfl, rfl⟩
      exact hne (Fin.ext (owner_unique hd.1 (h.lt_finish hd) hu.start_le hi))
  · exact h

/-! ### Runs -/

/-- What holds in every state of a run. -/
structure System.Inv (S : ℕ) {T : ℕ} (A B : Entries) (s : System T) : Prop where
  threads : ∀ sect, (s.pool.threads sect).Inv S A B sect s.pool.shared
  joined_le : s.joined ≤ T
  returned : ∀ sect : Fin T, sect < s.joined → finish S T sect ≤ (s.pool.threads sect).i

theorem System.inv_init : (System.init S T).Inv S A B where
  threads := Thread.inv_enter
  joined_le := Nat.zero_le _
  returned := fun _ h => absurd h (Nat.not_lt_zero _)

/-- What the steps can be. -/
theorem System.step_cases {s s' : System T} {a : Actor T} (h : s.step S A B a = some s') :
    (a = .main ∧ s.created < T ∧ s' = { s with created := s.created + 1 }) ∨
      (a = .main ∧ ∃ hj : s.joined < T,
        finish S T s.joined ≤ (s.pool.threads ⟨s.joined, hj⟩).i ∧
          s' = { s with joined := s.joined + 1 }) ∨
      ∃ sect pool, a = .thread sect ∧ sect < s.created ∧
        s.pool.step (multiply S T A B) sect = some pool ∧ s' = { s with pool := pool } := by
  cases a with
  | main =>
    simp only [System.step] at h
    split_ifs at h with hc hj hi
    · exact .inl ⟨rfl, hc, (Option.some.inj h).symm⟩
    · exact .inr (.inl ⟨rfl, hj, not_lt.1 hi, (Option.some.inj h).symm⟩)
  | thread sect =>
    simp only [System.step] at h
    split_ifs at h with hc
    obtain ⟨pool, hp, rfl⟩ := Option.map_eq_some_iff.1 h
    exact .inr (.inr ⟨sect, pool, rfl, hc, hp, rfl⟩)

theorem System.Inv.step {s s' : System T} {a : Actor T} (hI : s.Inv S A B)
    (h : s.step S A B a = some s') : s'.Inv S A B := by
  obtain ⟨rfl, -, rfl⟩ | ⟨rfl, hj, hi, rfl⟩ | ⟨sect, pool, rfl, -, hp, rfl⟩ := System.step_cases h
  · exact ⟨hI.threads, hI.joined_le, hI.returned⟩
  · refine ⟨hI.threads, hj, fun sect hs => ?_⟩
    rcases Nat.lt_succ_iff_lt_or_eq.1 hs with hs | hs
    · exact hI.returned sect hs
    · have hsect : sect = ⟨s.joined, hj⟩ := Fin.ext hs
      rwa [hsect]
  · refine ⟨?_, hI.joined_le, fun other ho => ?_⟩
    · exact Pool.step_invariant (fun sect t g => t.Inv S A B sect g)
        (fun _ _ _ _ _ ht hs => ht.own hs)
        (fun _ _ _ _ _ _ _ hne ht hu hs => ht.other hne hu hs) hI.threads hp
    · have hstop := Pool.step_stopped hp fun g => multiply_eq_none.2 (hI.returned other ho)
      rw [hstop]
      exact hI.returned other ho

theorem System.inv_run {tr : List (Actor T)} {s : System T}
    (hr : Transition.Run (Transition.ofOption (System.step S A B)) (System.init S T) tr s) :
    s.Inv S A B :=
  hr.invariant (System.Inv S A B) System.inv_init fun _ _ _ hI hs => hI.step hs

/-- The rounds of the three loops that a thread has left, lexicographically. -/
def Thread.work (S last : ℕ) (t : Thread) : ℕ ×ₗ ℕ ×ₗ ℕ :=
  toLex (last - t.i, toLex (S - t.j, S - t.k))

theorem Thread.work_lt {sect : Fin T} {t t' : Thread} {g g' : Product T}
    (h : multiply S T A B sect t g = some (t', g')) :
    t'.work S (finish S T sect) < t.work S (finish S T sect) := by
  simp only [Thread.work, Prod.Lex.toLex_lt_toLex]
  obtain ⟨hi, ⟨hj, hk, rfl, rfl⟩ | ⟨hj, hk, rfl, rfl⟩ | ⟨hj, rfl, rfl⟩⟩ := multiply_cases h
  · exact .inr ⟨rfl, .inr ⟨rfl, by simp only; omega⟩⟩
  · exact .inr ⟨rfl, .inl (by simp only [Thread.enter]; omega)⟩
  · exact .inl (by simp only [Thread.enter]; omega)

/-- What is left until all threads are joined; of the threads, only the one that `main` joins
next counts. -/
def System.work (S : ℕ) {T : ℕ} (s : System T) : ℕ ×ₗ ℕ ×ₗ (ℕ ×ₗ ℕ ×ₗ ℕ) :=
  toLex (T - s.joined, toLex (T - s.created, if h : s.joined < T then
    (s.pool.threads ⟨s.joined, h⟩).work S (finish S T s.joined) else toLex (0, toLex (0, 0))))

/-- Until all threads are joined, `main` or the thread that it waits for has a step. -/
theorem System.exists_step {s : System T} (h : ¬ T ≤ s.joined) :
    ∃ a s', s.step S A B a = some s' ∧ s'.work S < s.work S := by
  have hj : s.joined < T := not_le.1 h
  by_cases hc : s.created < T
  · refine ⟨.main, _, if_pos hc, ?_⟩
    simp only [System.work, Prod.Lex.toLex_lt_toLex]
    exact .inr ⟨trivial, .inl (by omega)⟩
  · rcases hm : multiply S T A B ⟨s.joined, hj⟩ (s.pool.threads ⟨s.joined, hj⟩) s.pool.shared with
      _ | ⟨t, g⟩
    · have hi := multiply_eq_none.1 hm
      refine ⟨.main, { s with joined := s.joined + 1 }, ?_, ?_⟩
      · simp only [System.step]
        rw [if_neg hc, dif_pos hj, if_neg (not_lt.2 hi)]
      · simp only [System.work, Prod.Lex.toLex_lt_toLex]
        exact .inl (by omega)
    · refine ⟨.thread ⟨s.joined, hj⟩,
        { s with pool := ⟨Function.update s.pool.threads ⟨s.joined, hj⟩ t, g⟩ }, ?_, ?_⟩
      · simp only [System.step, Pool.step]
        rw [if_pos (show s.joined < s.created by omega), hm]
        rfl
      · simp only [System.work, Prod.Lex.toLex_lt_toLex, dif_pos hj, Function.update_self]
        exact .inr ⟨trivial, .inr ⟨trivial, Thread.work_lt hm⟩⟩

/-- Some order of the steps takes `main` to its end. -/
theorem exists_finished (S T : ℕ) (A B : Entries) : ∃ tr s, Finished S T A B tr s := by
  obtain ⟨tr, s, hr, hs⟩ := Transition.exists_run_to (System.work S) (fun s => T ≤ s.joined)
    (fun _ => System.exists_step (A := A) (B := B)) (System.init S T)
  exact ⟨tr, s, hr, le_antisymm (System.inv_run hr).joined_le hs⟩

/-- What the threads have stored when they are joined: the rows that they own. -/
theorem Finished.stored_iff {tr : List (Actor T)} {s : System T} (h : Finished S T A B tr s)
    (sect : Fin T) (i j : ℕ) : (sect, i, j) ∈ s.pool.shared.stores ↔
      start S T sect ≤ i ∧ i < finish S T sect ∧ j < S := by
  have hI := System.inv_run h.1
  have ht := hI.threads sect
  have hend := le_antisymm ht.le_finish (hI.returned sect (by rw [h.2]; exact sect.2))
  have hcol := ht.at_end hend.ge
  rw [ht.stored, Thread.Done, hend, hcol]
  omega

/-- The rows that some thread owns are computed once, and their entries are the sums. -/
theorem Finished.owned {tr : List (Actor T)} {s : System T} (h : Finished S T A B tr s) {i : ℕ}
    (hi : i < T * (S / T)) : RowOnce S s.pool.shared.stores i ∧
      ∀ j < S, s.pool.shared.C i j = int32 (entry S A B i j) := by
  have hI := System.inv_run h.1
  have hq : 0 < S / T := Nat.pos_of_mul_pos_left (by omega : 0 < T * (S / T))
  obtain ⟨sect, hsect⟩ : ∃ sect : Fin T, (sect : ℕ) = i / (S / T) :=
    ⟨⟨i / (S / T), (Nat.div_lt_iff_lt_mul hq).2 hi⟩, rfl⟩
  have hstart : start S T sect ≤ i := hsect ▸ Nat.div_mul_le_self i (S / T)
  have hfinish : i < finish S T sect := hsect ▸ (Nat.div_lt_iff_lt_mul hq).1 (Nat.lt_succ_self _)
  have hmem : ∀ j < S, (sect, i, j) ∈ s.pool.shared.stores :=
    fun j hj => (h.stored_iff sect i j).2 ⟨hstart, hfinish, hj⟩
  refine ⟨⟨sect, fun j hj => List.count_eq_one_of_mem (hI.threads sect).nodup (hmem j hj), ?_⟩, ?_⟩
  · intro sect' j hj
    obtain ⟨hs, hf, -⟩ := (h.stored_iff sect' i j).1 hj
    exact Fin.ext (owner_unique hs hf hstart hfinish)
  · intro j hj
    have ht := hI.threads sect
    exact ht.value i j ((ht.stored i j).1 (hmem j hj))

/-- A row that no thread owns is not computed. -/
theorem Finished.not_rowOnce {tr : List (Actor T)} {s : System T} (h : Finished S T A B tr s)
    {i : ℕ} (hi : T * (S / T) ≤ i) (hS : 0 < S) : ¬ RowOnce S s.pool.shared.stores i := by
  rintro ⟨sect, hcount, -⟩
  have hmem : (sect, i, 0) ∈ s.pool.shared.stores :=
    List.count_pos_iff.1 (by rw [hcount 0 hS]; exact Nat.one_pos)
  obtain ⟨-, hf, -⟩ := (h.stored_iff sect i 0).1 hmem
  have hle : finish S T sect ≤ T * (S / T) := Nat.mul_le_mul_right _ sect.2
  omega

/-- Every order of the steps computes every row once and every entry exactly, if and only if
the number of threads divides the number of rows and the sums are in the range of `int`. -/
theorem covers_iff (S T : ℕ) (A B : Entries) :
    (∀ tr s, Finished S T A B tr s → (∀ i < S, RowOnce S s.pool.shared.stores i) ∧
      ∀ i < S, ∀ j < S, s.pool.shared.C i j = entry S A B i j) ↔
    T ∣ S ∧ ∀ i < S, ∀ j < S, int32 (entry S A B i j) = entry S A B i j := by
  constructor
  · intro hall
    obtain ⟨tr, s, h⟩ := exists_finished S T A B
    obtain ⟨hrows, hvalues⟩ := hall tr s h
    have hdvd : T ∣ S := by
      by_contra hnd
      have hne : T * (S / T) ≠ S := fun heq => hnd ⟨_, heq.symm⟩
      have hlt : T * (S / T) < S := lt_of_le_of_ne (Nat.mul_div_le S T) hne
      exact h.not_rowOnce (i := S - 1) (by omega) (by omega) (hrows (S - 1) (by omega))
    refine ⟨hdvd, fun i hi j hj => ?_⟩
    rw [← (h.owned (by rwa [Nat.mul_div_cancel' hdvd])).2 j hj]
    exact hvalues i hi j hj
  · rintro ⟨hdvd, hrange⟩ tr s h
    have howned : ∀ i < S, i < T * (S / T) := by
      intro i hi
      rwa [Nat.mul_div_cancel' hdvd]
    exact ⟨fun i hi => (h.owned (howned i hi)).1,
      fun i hi j hj => ((h.owned (howned i hi)).2 j hj).trans (hrange i hi j hj)⟩

end Rows

/-- The fallback divides the number of rows only where one of the tests does. -/
theorem findThreadCount_dvd_iff (S : ℕ) :
    findThreadCount S ∣ S ↔ ∃ d, 2 ≤ d ∧ d ≤ 7 ∧ d ∣ S := by
  constructor
  · intro h
    have hrange : 2 ≤ findThreadCount S ∧ findThreadCount S ≤ 7 := by
      unfold findThreadCount
      split_ifs <;> norm_num
    exact ⟨_, hrange.1, hrange.2, h⟩
  · rintro ⟨d, h2, h7, hd⟩
    unfold findThreadCount
    interval_cases d <;> split_ifs <;> omega

/-- The entries that `fillArray` gives. -/
def Filled (S : ℕ) (A : Entries) : Prop := ∀ i < S, ∀ j < S, 1 ≤ A i j ∧ A i j ≤ 9

theorem filled_fillArray (S : ℕ) (rand : ℕ → ℕ → ℕ) : Filled S (fillArray rand) := by
  intro i _ j _
  unfold fillArray
  omega

theorem entry_nonneg {S : ℕ} {A B : Entries} (hA : Filled S A) (hB : Filled S B) {i j : ℕ}
    (hi : i < S) (hj : j < S) : 0 ≤ entry S A B i j := by
  refine Finset.sum_nonneg fun k hk => ?_
  have hk := Finset.mem_range.1 hk
  exact mul_nonneg (by linarith [(hA i hi k hk).1]) (by linarith [(hB k hk j hj).1])

/-- Every order of the steps computes every row once and the whole product, if and only if
some number from 2 to 7 divides the number of rows and no sum leaves the range of `int`. -/
theorem multiply_covers_iff (S : ℕ) (A B : Entries) (hA : Filled S A) (hB : Filled S B) :
    (∀ tr s, Finished S (findThreadCount S) A B tr s →
      (∀ i < S, RowOnce S s.pool.shared.stores i) ∧
        ∀ i < S, ∀ j < S, s.pool.shared.C i j = entry S A B i j) ↔
    (∃ d, 2 ≤ d ∧ d ≤ 7 ∧ d ∣ S) ∧ ∀ i < S, ∀ j < S, entry S A B i j < 2 ^ 31 := by
  rw [covers_iff, findThreadCount_dvd_iff]
  refine and_congr_right fun _ => forall₂_congr fun i hi => forall₂_congr fun j hj => ?_
  have h0 := entry_nonneg hA hB hi hj
  constructor
  · intro h
    exact (int32_eq_iff.1 h).2.2
  · intro h
    exact int32_of_range (by linarith) h

theorem multiply_covers_iff_two : Filled 2 (fun _ _ => 9) ∧
    ((∀ tr s, Finished 2 (findThreadCount 2) (fun _ _ => 9) (fun _ _ => 9) tr s →
      (∀ i < 2, RowOnce 2 s.pool.shared.stores i) ∧
        ∀ i < 2, ∀ j < 2, s.pool.shared.C i j = entry 2 (fun _ _ => 9) (fun _ _ => 9) i j) ↔
    (∃ d, 2 ≤ d ∧ d ≤ 7 ∧ d ∣ 2) ∧
      ∀ i < 2, ∀ j < 2, entry 2 (fun _ _ => 9) (fun _ _ => 9) i j < 2 ^ 31) := by
  have h : Filled 2 fun _ _ => 9 := by
    intro i _ j _
    norm_num
  exact ⟨h, multiply_covers_iff 2 _ _ h h⟩

/-- With 11 rows, seven threads have one row each, and the last four rows are left out. -/
theorem rows_left_out : ¬ ∀ (S : ℕ), 1 ≤ S → ∀ A B : Entries, Filled S A → Filled S B →
    ∀ tr s, Finished S (findThreadCount S) A B tr s →
      (∀ i < S, RowOnce S s.pool.shared.stores i) ∧
        ∀ i < S, ∀ j < S, s.pool.shared.C i j = entry S A B i j := by
  intro hall
  have hfilled : Filled 11 fun _ _ => 1 := by
    intro i _ j _
    norm_num
  obtain ⟨tr, s, h⟩ := exists_finished 11 (findThreadCount 11) (fun _ _ => 1) fun _ _ => 1
  have hrow := (hall 11 (by norm_num) _ _ hfilled hfilled tr s h).1 10 (by norm_num)
  exact h.not_rowOnce (by decide) (by norm_num) hrow

end SchoolProjects.MatrixMultiplication
