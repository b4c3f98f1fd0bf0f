import Mathlib.Algebra.BigOperators.Group.Finset.Basic
import Mathlib.Algebra.Order.BigOperators.Group.Finset
import TcpAndParallel.Monitors

namespace TcpAndParallel

variable {τ μ κ δ π χ : Type*} [DecidableEq τ] [DecidableEq μ] [DecidableEq κ] [Fintype κ]

def Instr.Signals (c : κ) : Instr τ μ κ δ π χ → Prop
  | .signal c' _ => c' = c
  | _ => False

instance (c : κ) (i : Instr τ μ κ δ π χ) : Decidable (i.Signals c) :=
  match i with
  | .signal c' _ => inferInstanceAs (Decidable (c' = c))
  | .lock _ _ | .unlock _ _ | .wait _ _ _ | .broadcast _ _ | .act _ | .halt =>
    inferInstanceAs (Decidable False)

/-- `units` are what the waiters on `c` are woken for, and `cares p` says that a thread at `p` will
take a unit, or look for one, or signal `c`. A thread waits only where there is no unit, and a step
that makes a unit or gives up the care for one takes on another, or signals. -/
structure Caring (code : π → Instr τ μ κ δ π χ) (I : Machine τ μ κ δ π → Prop) (c : κ)
    (cares : π → Bool) (units : δ → Nat) : Prop where
  wakes : ∀ p m next, code p = .wait c m next → cares next = true
  checked : ∀ s t m next, I s → code (s.pc t) = .wait c m next → units s.data = 0
  sync : ∀ p next, (code p).next? = some next → cares p = true →
    cares next = true ∨ (code p).Signals c
  act : ∀ s t choice f d next, I s → code (s.pc t) = .act f → f t choice s.data = some (d, next) →
    units d + (cares (s.pc t)).toNat ≤ units s.data + (cares next).toNat

/-- The same, where a step on the data has to see to it only once a thread waits, and while there is
something to wake for. -/
structure Minding (code : π → Instr τ μ κ δ π χ) (I : Machine τ μ κ δ π → Prop) (c : κ)
    (cares : π → Bool) (units : δ → Nat) : Prop where
  wakes : ∀ p m next, code p = .wait c m next → cares next = true
  checked : ∀ s t m next, I s → code (s.pc t) = .wait c m next → units s.data = 0
  sync : ∀ p next, (code p).next? = some next → cares p = true →
    cares next = true ∨ (code p).Signals c
  act : ∀ s t choice f d next, I s → s.waiters c ≠ ∅ → code (s.pc t) = .act f →
    f t choice s.data = some (d, next) → units d ≠ 0 →
      units d + (cares (s.pc t)).toNat ≤ units s.data + (cares next).toNat

omit [DecidableEq τ] [DecidableEq μ] [DecidableEq κ] [Fintype κ] in
theorem Caring.minding {code : π → Instr τ μ κ δ π χ} {I : Machine τ μ κ δ π → Prop} {c : κ}
    {cares : π → Bool} {units : δ → Nat} (g : Caring code I c cares units) :
    Minding code I c cares units :=
  ⟨g.wakes, g.checked, g.sync, fun s t choice f d next hI _ hf hd _ => g.act s t choice f d next hI hf hd⟩

def care (c : κ) (cares : π → Bool) (s : Machine τ μ κ δ π) (t : τ) : Nat :=
  if t ∈ s.waiters c then 0 else (cares (s.pc t)).toNat

/-- There is a thread awake for each unit, once a thread waits. -/
structure Funded [Fintype τ] (c : κ) (cares : π → Bool) (units : δ → Nat) (s : Machine τ μ κ δ π) :
    Prop where
  sleepers : ∀ t ∈ s.waiters c, cares (s.pc t) = true
  funds : s.waiters c ≠ ∅ → units s.data ≤ ∑ t, care c cares s t

variable {code : π → Instr τ μ κ δ π χ} {I : Machine τ μ κ δ π → Prop} {c : κ} {cares : π → Bool}
  {units : δ → Nat} {s s' : Machine τ μ κ δ π} {t : τ} {choice : χ} {woken : Finset τ}

omit [DecidableEq μ] [DecidableEq κ] [Fintype κ] in
theorem care_of_asleep {u : τ} (h : u ∈ s.waiters c) : care c cares s u = 0 := by
  unfold care
  rw [if_pos h]

omit [DecidableEq μ] [DecidableEq κ] [Fintype κ] in
theorem care_of_awake {u : τ} (h : u ∉ s.waiters c) : care c cares s u = (cares (s.pc u)).toNat := by
  unfold care
  rw [if_neg h]

theorem care_le_of_ne (h : s.step code (.run t choice woken) = some s') {u : τ} (hu : u ≠ t) :
    care c cares s u ≤ care c cares s' u := by
  by_cases hs : u ∈ s.waiters c
  · rw [care_of_asleep hs]
    exact Nat.zero_le _
  · have hs' : u ∉ s'.waiters c := by
      intro hm
      rcases mem_waiters_of_step h hm with hm | ⟨he, -⟩
      · exact hs hm
      · exact hu he
    rw [care_of_awake hs, care_of_awake hs', pc_of_ne h hu]

variable (c cares) in
theorem sum_care_of_step [Fintype τ] (h : s.step code (.run t choice woken) = some s') {m n : Nat}
    (ht : m + care c cares s t ≤ n + care c cares s' t) :
    m + ∑ u, care c cares s u ≤ n + ∑ u, care c cares s' u := by
  rw [← Finset.add_sum_erase _ _ (Finset.mem_univ t),
    ← Finset.add_sum_erase _ (care c cares s') (Finset.mem_univ t)]
  have others : ∑ u ∈ Finset.univ.erase t, care c cares s u ≤
      ∑ u ∈ Finset.univ.erase t, care c cares s' u :=
    Finset.sum_le_sum fun u hu => care_le_of_ne h (Finset.ne_of_mem_erase hu)
  omega

theorem sum_care_of_wakeup [Fintype τ] (h : s.step code (.run t choice woken) = some s') {v : τ}
    (hv : v ∈ s.waiters c) (hv' : v ∉ s'.waiters c) (hcares : cares (s.pc v) = true) :
    ∑ u, care c cares s u ≤ ∑ u, care c cares s' u := by
  have hvt : v ≠ t := by
    rintro rfl
    exact (step_run h).1 ⟨c, hv⟩
  have hmore : care c cares s v < care c cares s' v := by
    rw [care_of_asleep hv, care_of_awake hv', pc_of_ne h hvt, hcares]
    exact Nat.zero_lt_one
  have others : ∑ u ∈ Finset.univ.erase t, care c cares s u <
      ∑ u ∈ Finset.univ.erase t, care c cares s' u := by
    apply Finset.sum_lt_sum
    · intro u hu
      exact care_le_of_ne h (Finset.ne_of_mem_erase hu)
    · exact ⟨v, Finset.mem_erase.mpr ⟨hvt, Finset.mem_univ v⟩, hmore⟩
  have hone : care c cares s t ≤ 1 := by
    unfold care
    split
    · exact Nat.zero_le _
    · exact Bool.toNat_le _
  rw [← Finset.add_sum_erase _ _ (Finset.mem_univ t),
    ← Finset.add_sum_erase _ (care c cares s') (Finset.mem_univ t)]
  omega

theorem mem_waiters_of_no_wait (h : s.step code (.run t choice woken) = some s')
    (hno : ∀ m next, code (s.pc t) ≠ .wait c m next) {u : τ} (hu : u ∈ s'.waiters c) :
    u ∈ s.waiters c := by
  rcases mem_waiters_of_step h hu with hu | ⟨-, m, next, hc⟩
  · exact hu
  · exact absurd hc (hno m next)

theorem Funded.run [Fintype τ] (g : Minding code I c cares units) (hs : Funded c cares units s)
    (hI : I s) (h : s.step code (.run t choice woken) = some s') : Funded c cares units s' := by
  obtain ⟨hb, next, hpc, hdo⟩ := step_run h
  have hnext : s'.pc t = next := by rw [hpc, Function.update_self]
  have awake : t ∉ s.waiters c := fun hm => hb ⟨c, hm⟩
  constructor
  · intro u hu
    rcases mem_waiters_of_step h hu with hu | ⟨rfl, m, after, hc⟩
    · have hne : u ≠ t := by
        rintro rfl
        exact awake hu
      rw [pc_of_ne h hne]
      exact hs.sleepers u hu
    · rw [pc_of_next h (by rw [hc]; rfl)]
      exact g.wakes _ _ _ hc
  · intro hsome
    by_cases hwait : ∃ m after, code (s.pc t) = .wait c m after
    · obtain ⟨m, after, hc⟩ := hwait
      have hzero := g.checked s t m after hI hc
      rcases hdo with ⟨-, hd⟩ | ⟨f, hf, -⟩
      · rw [hd, hzero]
        exact Nat.zero_le _
      · rw [hc] at hf
        simp at hf
    have hno : ∀ m after, code (s.pc t) ≠ .wait c m after := fun m after hc => hwait ⟨m, after, hc⟩
    have hbefore : s.waiters c ≠ ∅ := by
      obtain ⟨u, hu⟩ := Finset.nonempty_iff_ne_empty.mpr hsome
      exact Finset.ne_empty_of_mem (mem_waiters_of_no_wait h hno hu)
    have awake' : t ∉ s'.waiters c := fun hm => awake (mem_waiters_of_no_wait h hno hm)
    have hfunds := hs.funds hbefore
    rcases hdo with ⟨hn, hd⟩ | ⟨f, hf, hd, -⟩
    · rw [hd]
      by_cases hsignal : (code (s.pc t)).Signals c
      · cases hc : code (s.pc t) with
        | signal c' after =>
          rw [hc] at hsignal
          obtain rfl : c' = c := hsignal
          rcases wakes_of_signal h hc with hnone | ⟨v, hv, hv'⟩
          · exact absurd hnone hbefore
          · exact hfunds.trans (sum_care_of_wakeup h hv hv' (hs.sleepers v hv))
        | lock _ _ | unlock _ _ | wait _ _ _ | broadcast _ _ | act _ | halt =>
          rw [hc] at hsignal
          exact hsignal.elim
      · have hkeep : (cares (s.pc t)).toNat ≤ (cares next).toNat := by
          cases hcares : cares (s.pc t) with
          | false => exact Nat.zero_le _
          | true =>
            have hafter := (g.sync _ _ hn hcares).resolve_right hsignal
            rw [hafter]
        have hsum := sum_care_of_step c cares h (m := 0) (n := 0) (by
          rw [care_of_awake awake, care_of_awake awake', hnext]
          omega)
        omega
    · by_cases hzero : units s'.data = 0
      · rw [hzero]
        exact Nat.zero_le _
      have hact := g.act s t choice f s'.data next hI hbefore hf hd hzero
      have hsum := sum_care_of_step c cares h (m := units s'.data)
        (n := units s.data) (by
          rw [care_of_awake awake, care_of_awake awake', hnext]
          exact hact)
      omega

omit [DecidableEq μ] [Fintype κ] in
theorem Funded.spurious [Fintype τ] (hs : Funded c cares units s) (c' : κ) (u : τ) :
    Funded c cares units
      { s with waiters := Function.update s.waiters c' ((s.waiters c').erase u) } := by
  have fewer : ∀ v, v ∈ Function.update s.waiters c' ((s.waiters c').erase u) c → v ∈ s.waiters c := by
    intro v hv
    by_cases hc : c = c'
    · subst hc
      exact Finset.mem_of_mem_erase (by simpa using hv)
    · rwa [Function.update_of_ne hc] at hv
  refine ⟨fun v hv => hs.sleepers v (fewer v hv), fun hsome => ?_⟩
  obtain ⟨v, hv⟩ := Finset.nonempty_iff_ne_empty.mpr hsome
  have hfunds := hs.funds (Finset.ne_empty_of_mem (fewer v hv))
  refine hfunds.trans (Finset.sum_le_sum fun w _ => ?_)
  by_cases hw : w ∈ s.waiters c
  · rw [care_of_asleep hw]
    exact Nat.zero_le _
  · have hw' : w ∉ Function.update s.waiters c' ((s.waiters c').erase u) c := fun hm => hw (fewer w hm)
    rw [care_of_awake hw]
    unfold care
    rw [if_neg hw']

/-- The rule for whole runs. -/
theorem Minding.reaches [Fintype τ] (g : Minding code I c cares units)
    {C : Machine τ μ κ δ π → Event τ κ χ → Prop} {pc : τ → π} {d : δ}
    (hI : ∀ s, Reaches (Machine.step code) C (.start pc d) s → I s)
    (h : Reaches (Machine.step code) C (.start pc d) s) : Funded c cares units s := by
  induction h with
  | start => exact ⟨fun t ht => by simp [Machine.start] at ht, fun hno => absurd rfl hno⟩
  | @next s s' e hr _ he ih =>
    cases e with
    | spurious c' u =>
      obtain ⟨-, rfl⟩ := step_spurious he
      exact ih.spurious c' u
    | run t choice woken => exact ih.run g (hI s hr) he

theorem Caring.reaches [Fintype τ] (g : Caring code I c cares units)
    {C : Machine τ μ κ δ π → Event τ κ χ → Prop} {pc : τ → π} {d : δ}
    (hI : ∀ s, Reaches (Machine.step code) C (.start pc d) s → I s)
    (h : Reaches (Machine.step code) C (.start pc d) s) : Funded c cares units s :=
  g.minding.reaches hI h

omit [DecidableEq μ] [DecidableEq κ] [Fintype κ] in
/-- Where a thread waits and there is a unit, somebody cares and is awake. -/
theorem Funded.exists_awake [Fintype τ] (hs : Funded c cares units s) (hsome : s.waiters c ≠ ∅)
    (hunits : units s.data ≠ 0) : ∃ t, cares (s.pc t) = true ∧ t ∉ s.waiters c := by
  by_contra hno
  have hzero : ∑ t, care c cares s t = 0 := by
    apply Finset.sum_eq_zero
    intro t _
    by_cases ht : t ∈ s.waiters c
    · exact care_of_asleep ht
    · rw [care_of_awake ht]
      cases hc : cares (s.pc t) with
      | false => rfl
      | true => exact absurd ⟨t, hc, ht⟩ hno
  have hfunds := hs.funds hsome
  omega

end TcpAndParallel
