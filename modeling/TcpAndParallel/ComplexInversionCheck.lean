import TcpAndParallel.ComplexInversionExact

namespace TcpAndParallel

namespace ComplexInversion

open NodeTables GaussJordan

variable {n : Nat}

/-- What `main` checks: the matrix times the augment that `invert` leaves is the identity. -/
def Inverts (A : Matrix (Fin n) (Fin n) ℂ) (Rr Ar : Fin n → Node ℝ) (m : Tables ℝ) : Prop :=
  ∃ m' B, invert n Rr Ar m = some m' ∧ Holds m' .augment (complexEntries B) ∧ A * B = 1

def Exact (A : Matrix (Fin n) (Fin n) ℂ) : Prop :=
  ∀ p q : Fin n, p.val = 0 → q.val = 1 → ExactCorner (A p p) (A p q) (A q p) (A q q)

def Aligned (A : Matrix (Fin n) (Fin n) ℂ) : Prop :=
  ∀ p q : Fin n, p.val = 0 → q.val = 1 → AlignedCorner (A p p) (A p q) (A q p) (A q q)

def Unsigned (A : Matrix (Fin n) (Fin n) ℂ) : Prop :=
  ∀ p q : Fin n, p.val = 0 → q.val = 1 → UnsignedCorner (A p p) (A p q) (A q p) (A q q) ∧
    ∀ i : Fin n, 2 ≤ i.val → UnsignedRow (A p p) (A p q) (A q p) (A q q) (A i p) (A i q)

/-- Two rounds are enough, rounding up changes nothing and the slip of the sign adds nothing. -/
structure Clean (A : Matrix (Fin n) (Fin n) ℂ) : Prop where
  trimmed : Trimmed A
  exact : Exact A
  unsigned : Unsigned A

section Check

variable {A : Matrix (Fin n) (Fin n) ℂ} {m : Tables ℝ} {Rr Ar : Fin n → Node ℝ}

theorem complexEntries_unique {t : TableId} {X Y : Matrix (Fin n) (Fin n) ℂ}
    (hX : Holds m t (complexEntries X)) (hY : Holds m t (complexEntries Y)) : X = Y := by
  ext k c
  have hcol : columnNodes c (fun k => complexEntries X k c) =
      columnNodes c fun k => complexEntries Y k c := (hX c).symm.trans (hY c)
  have hnode := congrFun (List.ofFn_injective hcol) k
  simp only [complexEntries, Node.mk.injEq, true_and] at hnode
  exact Complex.ext hnode.1 hnode.2

theorem inverts_iff (matrix : Holds m .mytable (complexEntries A))
    (identity : Holds (n := n) m .augment (complexEntries 1)) :
    Inverts A Rr Ar m ↔ Divides A 0 ∧ Divides A 1 ∧ A * (stage A 2).2 = 1 := by
  constructor
  · rintro ⟨m', B, hm', hB, hmul⟩
    have hzero : Divides A 0 := by
      by_contra hno
      have hnone := invert_stuck matrix identity Rr Ar (by omega) (fun k hk => by omega) hno
      simp [hnone] at hm'
    have hone : Divides A 1 := by
      by_contra hno
      have hnone := invert_stuck matrix identity Rr Ar (by omega)
        (fun k hk => by rwa [Nat.lt_one_iff.mp hk]) hno
      simp [hnone] at hm'
    obtain ⟨m₁, hm₁, hstage⟩ := invert_stage matrix identity Rr Ar hzero hone
    obtain rfl : m₁ = m' := Option.some.inj (hm₁.symm.trans hm')
    rw [complexEntries_unique hstage hB]
    exact ⟨hzero, hone, hmul⟩
  · rintro ⟨hzero, hone, hmul⟩
    obtain ⟨m', hm', hstage⟩ := invert_stage matrix identity Rr Ar hzero hone
    exact ⟨m', _, hm', hstage, hmul⟩

/-- The columns of the augment from the third on are never written, so that a right inverse makes
those of the matrix columns of the identity. -/
theorem Inverts.trimmed (h : Inverts A Rr Ar m) (matrix : Holds m .mytable (complexEntries A))
    (identity : Holds (n := n) m .augment (complexEntries 1)) : Trimmed A := by
  obtain ⟨-, ⟨hn, -⟩, hmul⟩ := (inverts_iff matrix identity).mp h
  refine ⟨hn, fun i j hj => ?_⟩
  have hrounds := twoRounds (A := A) (p := ⟨0, by omega⟩) (q := ⟨1, hn⟩) rfl rfl
  rw [← Matrix.one_apply, ← hmul, Matrix.mul_apply]
  simp [hrounds.rest _ j hj]

theorem Clean.inverts (h : Clean A) (minors : LeadingMinors A)
    (matrix : Holds m .mytable (complexEntries A))
    (identity : Holds (n := n) m .augment (complexEntries 1)) : Inverts A Rr Ar m := by
  have hn := h.trimmed.1
  obtain ⟨p, hp⟩ : ∃ p : Fin n, p = ⟨0, by omega⟩ := ⟨_, rfl⟩
  obtain ⟨q, hq⟩ : ∃ q : Fin n, q = ⟨1, hn⟩ := ⟨_, rfl⟩
  have hp0 : p.val = 0 := by rw [hp]
  have hq1 : q.val = 1 := by rw [hq]
  have ha := minors.first hp0
  have hD := minors.second hp0 hq1
  have hexact := h.exact p q hp0 hq1
  rw [inverts_iff matrix identity, mul_stage_eq_one_iff hp0 hq1 h.trimmed hexact ha hD]
  refine ⟨⟨by omega, ?_⟩, ⟨hn, ?_⟩, h.unsigned p q hp0 hq1⟩
  · rw [← hp]
    exact divisor_ne_zero hexact.firstPivot ha
  · have hpivot : (stage A 1).1 q q = (A p p * A q q - A p q * A q p) / A p p := by
      have hqp := (corner_ne hp0 hq1).symm
      have hle : p.val ≤ q.val := by omega
      rw [stage_one hp0]
      simp only [matrixStep, hqp, if_false, hle, if_true]
      rw [(hexact.values ha hD).1]
      field_simp
    rw [← hq, hpivot]
    exact divisor_ne_zero hexact.secondPivot (div_ne_zero hD ha)

/-- Where the run inverts the matrix the condition holds, if the pivots are on the axes and no
rounding makes up for a slip of the sign. -/
theorem Inverts.clean (h : Inverts A Rr Ar m) (minors : LeadingMinors A)
    (matrix : Holds m .mytable (complexEntries A))
    (identity : Holds (n := n) m .augment (complexEntries 1)) (aligned : Aligned A) : Clean A := by
  have htrimmed := h.trimmed matrix identity
  obtain ⟨-, -, hmul⟩ := (inverts_iff matrix identity).mp h
  have hexact : Exact A := fun p q hp hq =>
    exactCorner_of_aligned hp hq htrimmed (aligned p q hp hq) (minors.first hp)
      (minors.second hp hq) hmul
  refine ⟨htrimmed, hexact, fun p q hp hq => ?_⟩
  exact (mul_stage_eq_one_iff hp hq htrimmed (hexact p q hp hq) (minors.first hp)
    (minors.second hp hq)).mp hmul

end Check

/-- The condition is enough; it is needed that two rounds are, and the rest of it too where the
pivots are on the axes and no rounding makes up for a slip of the sign. -/
theorem inverts_of_clean (A : Matrix (Fin n) (Fin n) ℂ) (minors : LeadingMinors A) (m : Tables ℝ)
    (matrix : Holds m .mytable (complexEntries A))
    (identity : Holds (n := n) m .augment (complexEntries 1)) (Rr Ar : Fin n → Node ℝ) :
    (Clean A → Inverts A Rr Ar m) ∧
      (Inverts A Rr Ar m → Trimmed A ∧ (Aligned A → Clean A)) :=
  ⟨fun h => h.inverts minors matrix identity,
    fun h => ⟨h.trimmed matrix identity, h.clean minors matrix identity⟩⟩

theorem inverts_of_clean_two :
    Inverts !![Complex.I, 0; 0, -Complex.I] (fun i => ⟨0, i, 0, 0⟩) (fun i => ⟨0, i, 0, 0⟩)
      (givenTables (complexEntries !![Complex.I, 0; 0, -Complex.I]) (complexEntries 1)) := by
  apply (inverts_of_clean _ (leadingMinors_two Complex.I_ne_zero (by simp)) _
    (givenTables_mytable _ _) (givenTables_augment _ _) _ _).1
  refine ⟨⟨le_rfl, fun i j hj => by omega⟩, fun p q hp hq => ?_, fun p q hp hq => ?_⟩
  · obtain rfl : p = 0 := Fin.ext hp
    obtain rfl : q = 1 := Fin.ext hq
    refine ⟨.inl ?_, .inl ?_, ⟨0, -1000000, ?_, ?_⟩, ⟨0, 0, ?_, ?_⟩, ⟨0, 1000000, ?_, ?_⟩,
      ⟨0, 0, ?_, ?_⟩⟩
    all_goals simp
  · obtain rfl : p = 0 := Fin.ext hp
    obtain rfl : q = 1 := Fin.ext hq
    refine ⟨⟨?_, ?_, ?_⟩, fun i hi => by omega⟩
    all_goals simp

theorem third_column_left :
    LeadingMinors !![(1 : ℂ), 0, 0; 0, 1, 0; 0, 0, 2] ∧
      ¬Inverts !![(1 : ℂ), 0, 0; 0, 1, 0; 0, 0, 2] (fun i => ⟨0, i, 0, 0⟩) (fun i => ⟨0, i, 0, 0⟩)
        (givenTables (complexEntries !![(1 : ℂ), 0, 0; 0, 1, 0; 0, 0, 2]) (complexEntries 1)) := by
  constructor
  · intro k hk
    have hcases : k = 0 ∨ k = 1 ∨ k = 2 ∨ k = 3 := by omega
    rcases hcases with rfl | rfl | rfl | rfl
    · simp
    · simp
    · simp [Matrix.det_fin_two]
    · simp [Matrix.det_fin_three]
  · intro h
    have hthird := (h.trimmed (givenTables_mytable _ _) (givenTables_augment _ _)).2 2 2 le_rfl
    simp at hthird

end ComplexInversion

end TcpAndParallel
