import SchoolProjects.Vision.SecondPass

/-! The labels `p2` leaves in an image, against the connected components of its lit
pixels. Pixels with the same positive label are connected, and the labels in use are
those from 1 to the number reported. Connected pixels have the same positive label
just when no pixel of the image is blind. -/

namespace SchoolProjects.Vision

open Forest

namespace Image

/-- `main` of `p2.cc` up to writing: the number reported and the image; `none` also
for a short file. -/
def p2 (memory : ℕ → ℕ → ℤ) (rows cols : ℕ) (bytes : List UInt8) : Option (ℕ × Image) :=
  match ReadImage memory rows cols true bytes with
  | some (true, im) => im.secondPass
  | _ => none

/-- Labels that do not mix components and are numbered without gaps. -/
structure SoundLabels (rows cols : ℕ) (lit : Pixel → Prop) (final : Pixel → ℤ) (k : ℕ) :
    Prop where
  joined : ∀ p q : Pixel, p.1 < rows → p.2 < cols → q.1 < rows → q.2 < cols →
    0 < final p → final p = final q → lit p ∧ Joined lit p q
  unlit : ∀ p : Pixel, p.1 < rows → p.2 < cols → ¬ lit p → final p = 0
  nonneg : ∀ p : Pixel, p.1 < rows → p.2 < cols → 0 ≤ final p
  dense : ∀ n : ℤ, (∃ p : Pixel, p.1 < rows ∧ p.2 < cols ∧ 0 < final p ∧ final p = n) ↔
    1 ≤ n ∧ n ≤ k

/-- Labels that keep components together. -/
structure CompleteLabels (lit : Pixel → Prop) (final : Pixel → ℤ) : Prop where
  positive : ∀ p, lit p → 0 < final p
  neighbours : ∀ p q, lit p → lit q → Adjacent p q → final p = final q

section Final

variable {rows cols : ℕ} {bytes : List UInt8} {im₀ : Image} {lit : Pixel → Prop}
  {final : Pixel → ℤ} {pairs : List (ℤ × ℤ)}

/-- What the second pass does to the labels of an image. -/
structure Numbered (rows cols : ℕ) (im₀ : Image) (final : Pixel → ℤ) : Prop where
  blank : ∀ p ∈ scan rows cols, im₀.label p = -1 → final p = 0
  number : ∀ p ∈ scan rows cols, ∀ r, im₀.labelChart.Root (im₀.label p) r →
    final p = im₀.labelChart.collection.idxOf r + 1

/-- A pixel with a positive label has a root. -/
theorem Numbered.root (hn : Numbered rows cols im₀ final)
    (hs : Sound lit (scan rows cols) im₀.label im₀.labelChart pairs) {p : Pixel}
    (hp : p ∈ scan rows cols) (hpos : final p ≠ 0) :
    lit p ∧ im₀.labelChart.Known (im₀.label p) ∧ ∃ r, im₀.labelChart.Root (im₀.label p) r := by
  obtain ⟨hl, hk⟩ := hs.known_of_ne hp fun h => hpos (hn.blank p hp h)
  exact ⟨hl, hk, hs.rep.wf.root_exists hk⟩

theorem Numbered.soundLabels (hn : Numbered rows cols im₀ final)
    (hs : Sound lit (scan rows cols) im₀.label im₀.labelChart pairs) :
    SoundLabels rows cols lit final im₀.labelChart.collection.length where
  joined p q hp₁ hp₂ hq₁ hq₂ hpos heq := by
    have hp : p ∈ scan rows cols := mem_scan.mpr ⟨hp₁, hp₂⟩
    have hq : q ∈ scan rows cols := mem_scan.mpr ⟨hq₁, hq₂⟩
    obtain ⟨hlp, hkp, r, hr⟩ := hn.root hs hp (by omega)
    obtain ⟨-, hkq, s, hs'⟩ := hn.root hs hq (by omega)
    -- equal numbers are equal places in `collection`
    have hidx : im₀.labelChart.collection.idxOf r = im₀.labelChart.collection.idxOf s := by
      have h1 := hn.number p hp r hr
      have h2 := hn.number q hq s hs'
      omega
    obtain rfl := (List.idxOf_inj (hs.rep.wf.root_mem hr)).mp hidx
    exact ⟨hlp, hs.joined p hp q hq hkp ((hs.rep.agree _ _ _ _ hr hs').mp rfl)⟩
  unlit p hp₁ hp₂ hlit := by
    have hp : p ∈ scan rows cols := mem_scan.mpr ⟨hp₁, hp₂⟩
    exact hn.blank p hp ((hs.shape p hp).resolve_right fun h => hlit h.1)
  nonneg p hp₁ hp₂ := by
    have hp : p ∈ scan rows cols := mem_scan.mpr ⟨hp₁, hp₂⟩
    by_cases h0 : final p = 0
    · exact h0.ge
    · obtain ⟨-, -, r, hr⟩ := hn.root hs hp h0
      rw [hn.number p hp r hr]
      positivity
  dense n := by
    constructor
    · rintro ⟨p, hp₁, hp₂, hpos, rfl⟩
      have hp : p ∈ scan rows cols := mem_scan.mpr ⟨hp₁, hp₂⟩
      obtain ⟨-, -, r, hr⟩ := hn.root hs hp (by omega)
      have := List.idxOf_lt_length_of_mem (hs.rep.wf.root_mem hr)
      rw [hn.number p hp r hr]
      omega
    · rintro ⟨h1, hk⟩
      obtain ⟨t, rfl⟩ : ∃ t : ℕ, n = t + 1 := ⟨(n - 1).toNat, by omega⟩
      have ht : t < im₀.labelChart.collection.length := by omega
      -- the root at this place has a number, which is on some pixel
      obtain ⟨key, -, hroot⟩ := hs.rep.wf.key_of_mem (List.getElem_mem ht)
      have hknown : im₀.labelChart.Known key := by
        obtain ⟨m, hm, -⟩ := hroot
        simp [UnionFind.Known, hm]
      obtain ⟨p, hp, rfl⟩ := hs.used key hknown
      have hfin := hn.number p hp _ hroot
      rw [hs.rep.wf.nodup.idxOf_getElem t ht] at hfin
      exact ⟨p, (mem_scan.mp hp).1, (mem_scan.mp hp).2, by omega, hfin⟩

/-- Full labels are complete. -/
theorem Numbered.completeLabels [DecidablePred lit] (hn : Numbered rows cols im₀ final)
    (hs : Sound lit (scan rows cols) im₀.label im₀.labelChart pairs)
    (hf : Full lit (scan rows cols) im₀.label pairs)
    (hin : ∀ p, lit p → p ∈ scan rows cols) : CompleteLabels lit final where
  positive p hl := by
    obtain ⟨-, hk⟩ := hs.known_of_ne (hin p hl) (hf.visible p (hin p hl) hl)
    obtain ⟨r, hr⟩ := hs.rep.wf.root_exists hk
    rw [hn.number p (hin p hl) r hr]
    positivity
  neighbours p q hlp hlq hadj := by
    have hrel := hf.linked p (hin p hlp) q (hin q hlq) hlp hlq hadj
    obtain ⟨-, hkp⟩ := hs.known_of_ne (hin p hlp) (hf.visible p (hin p hlp) hlp)
    obtain ⟨-, hkq⟩ := hs.known_of_ne (hin q hlq) (hf.visible q (hin q hlq) hlq)
    obtain ⟨r, hr⟩ := hs.rep.wf.root_exists hkp
    obtain ⟨s, hs'⟩ := hs.rep.wf.root_exists hkq
    rw [hn.number p (hin p hlp) r hr, hn.number q (hin q hlq) s hs',
      (hs.rep.agree _ _ _ _ hr hs').mpr hrel]

end Final

section P2

variable {rows cols : ℕ} {bytes : List UInt8}

/-- `p2` from reading to the final labels. -/
theorem p2_spec (memory : ℕ → ℕ → ℤ) (hlen : rows * cols ≤ bytes.length) :
    ∃ im₀ im, ReadImage memory rows cols true bytes = some (true, im₀) ∧
      FirstPass rows cols bytes (scan rows cols) im₀ ∧
      p2 memory rows cols bytes = some (im₀.labelChart.collection.length, im) ∧
      im.num_rows = rows ∧ im.num_columns = cols ∧ Numbered rows cols im₀ im.label := by
  obtain ⟨im₀, hread, h⟩ := readImage_firstPass memory hlen
  obtain ⟨pairs, hs, -⟩ := h.labels
  obtain ⟨im, hsecond, hrows, hcols, -, hfinal⟩ := secondPass_eq hs.rep.wf hs.unknown_neg (by
    rw [h.num_rows, h.num_columns]
    exact fun p hp => (hs.shape p hp).imp id And.right)
  rw [h.num_rows, h.num_columns] at hfinal
  refine ⟨im₀, im, hread, h, ?_, hrows.trans h.num_rows, hcols.trans h.num_columns,
    fun p hp => (hfinal p hp).1, fun p hp => (hfinal p hp).2⟩
  simp only [p2, hread, hsecond]

/-- The labels after `p2` against the components of the image. -/
theorem p2_labels (memory : ℕ → ℕ → ℤ) (hlen : rows * cols ≤ bytes.length) :
    ∃ k im, p2 memory rows cols bytes = some (k, im) ∧ im.num_rows = rows ∧
      im.num_columns = cols ∧ SoundLabels rows cols (Lit rows cols bytes) im.label k ∧
      (CompleteLabels (Lit rows cols bytes) im.label ↔ ∀ p, ¬ Blind (Lit rows cols bytes) p) := by
  obtain ⟨im₀, im, -, h, hp2, hrows, hcols, hn⟩ := p2_spec memory hlen
  obtain ⟨pairs, hs, hfull⟩ := h.labels
  have hin : ∀ p, Lit rows cols bytes p → p ∈ scan rows cols := fun p hp =>
    mem_scan.mpr ⟨hp.1, hp.2.1⟩
  refine ⟨_, im, hp2, hrows, hcols, hn.soundLabels hs, ?_⟩
  rcases hfull with ⟨hnone, hf⟩ | ⟨p, hp, hblind, hneg⟩
  · exact iff_of_true (hn.completeLabels hs hf hin) fun p hp => hnone p (hin p hp.1) hp
  · refine iff_of_false (fun hc => ?_) fun hno => hno p hblind
    have := hc.positive p hblind.1
    have := hn.blank p hp hneg
    omega

/-- Labels after `p2` do not mix components, and are numbered from 1 to the number
reported, which is the number of roots after the first pass. -/
theorem p2_sound (memory : ℕ → ℕ → ℤ) (rows cols : ℕ) (bytes : List UInt8)
    (hlen : rows * cols ≤ bytes.length) :
    ∃ k im₀ im, ReadImage memory rows cols true bytes = some (true, im₀) ∧
      k = im₀.labelChart.collection.length ∧ p2 memory rows cols bytes = some (k, im) ∧
      SoundLabels rows cols (Lit rows cols bytes) im.label k := by
  obtain ⟨im₀, im, hread, h, hp2, -, -, hn⟩ := p2_spec memory hlen
  obtain ⟨pairs, hs, -⟩ := h.labels
  exact ⟨_, im₀, im, hread, rfl, hp2, hn.soundLabels hs⟩

/-- A square ring, three pixels wide, with a hole in the middle. -/
def ring : List UInt8 := [255, 255, 255, 255, 0, 255, 255, 255, 255]

theorem p2_sound_ring : ∃ k im₀ im, ReadImage (fun _ _ => 0) 3 3 true ring = some (true, im₀) ∧
    k = im₀.labelChart.collection.length ∧ p2 (fun _ _ => 0) 3 3 ring = some (k, im) ∧
    SoundLabels 3 3 (Lit 3 3 ring) im.label k :=
  p2_sound _ 3 3 ring (by decide)

/-- Labels after `p2` keep components together just when no pixel is blind. -/
theorem p2_complete_iff (memory : ℕ → ℕ → ℤ) (rows cols : ℕ) (bytes : List UInt8)
    (hlen : rows * cols ≤ bytes.length) :
    ∃ k im, p2 memory rows cols bytes = some (k, im) ∧
      (CompleteLabels (Lit rows cols bytes) im.label ↔ ∀ p, ¬ Blind (Lit rows cols bytes) p) := by
  obtain ⟨k, im, hp2, -, -, -, hiff⟩ := p2_labels memory hlen
  exact ⟨k, im, hp2, hiff⟩

theorem p2_complete_iff_ring : ∃ k im, p2 (fun _ _ => 0) 3 3 ring = some (k, im) ∧
    (CompleteLabels (Lit 3 3 ring) im.label ↔ ∀ p, ¬ Blind (Lit 3 3 ring) p) :=
  p2_complete_iff _ 3 3 ring (by decide)

/-- The last pixel of the ring gets no label. -/
theorem ring_incomplete : ¬ ∀ (memory : ℕ → ℕ → ℤ) (rows cols : ℕ) (bytes : List UInt8),
    rows * cols ≤ bytes.length → ∃ k im, p2 memory rows cols bytes = some (k, im) ∧
      CompleteLabels (Lit rows cols bytes) im.label := by
  intro h
  obtain ⟨k, im, hp2, hc⟩ := h (fun _ _ => 0) 3 3 ring (by decide)
  have hrun : (p2 (fun _ _ => 0) 3 3 ring).map (fun r => r.2.label (2, 2)) = some 0 := by
    decide +kernel
  rw [hp2] at hrun
  have hzero : im.label (2, 2) = 0 := Option.some.inj hrun
  have := hc.positive (2, 2) (by decide)
  omega

end P2

end Image

end SchoolProjects.Vision
