import TcpAndParallel.Credits
import TcpAndParallel.ProducerConsumerFifo

namespace TcpAndParallel

namespace ProducerConsumer

variable {τ : Type*} [DecidableEq τ] {size : Nat}

def isConsumer : Pc → Bool
  | .consumer _ => true
  | .producer _ => false

/-- The thread has a value to add yet; within a round the count `i` is past the value under way. -/
def unfinished (i : Int32) : Pc → Bool
  | .producer .exit | .consumer _ => false
  | .producer .test | .producer .unlock | .producer .signal => i < 4
  | .producer _ => true

def announcesItem (p : Pc) : Bool := p matches .producer .unlock | .producer .signal

/-- A consumer that is to take an item, or a producer that is to announce one. -/
def caresForItems : Pc → Bool
  | .consumer p => !(p matches .signal | .unlock)
  | .producer p => (p matches .unlock | .signal)

/-- A producer that is to fill a free cell, or a consumer that is to announce one. -/
def caresForRoom : Pc → Bool
  | .producer p => !(p matches .test | .unlock | .signal | .exit)
  | .consumer p => (p matches .signal)

def items (d : Fifo τ) : Nat := d.added.length - d.removed.length

def room (size : Nat) (d : Fifo τ) : Nat := size - items d

omit [DecidableEq τ] in
theorem Consistent.items_eq {s : State τ} {q : Ring} {xs : List Int32} (hs : Consistent size s q xs) :
    items s.data = xs.length := by
  unfold items
  rw [hs.line, List.length_append]
  omega

def Reached (size : Nat) (s : State τ) : Prop := ∃ q xs, Consistent size s q xs

theorem wait_cases {p next : Pc} {m : Unit} {c : Cond} (hc : code size p = (.wait c m next : Op τ)) :
    c = .notFull ∧ p = .producer .wait ∧ next = .producer .wake ∨
      c = .notEmpty ∧ p = .consumer .wait ∧ next = .consumer .wake := by
  rcases p with p | p <;> cases p <;> simp [branch, statement] at hc ⊢ <;> exact ⟨hc.1.symm, hc.2.symm⟩

theorem caringForItems (size : Nat) :
    Caring (code (τ := τ) size) (Reached size) .notEmpty caresForItems items where
  wakes p m next hc := by
    obtain ⟨h, -⟩ | ⟨-, -, rfl⟩ := wait_cases hc
    · simp at h
    · rfl
  checked s t m next hI hc := by
    obtain ⟨q, xs, hs⟩ := hI
    obtain ⟨h, -⟩ | ⟨-, hp, -⟩ := wait_cases hc
    · simp at h
    · have hknows := (hs.busy t (by rw [hp]; rfl)).2
      rw [hp] at hknows
      obtain rfl : xs = [] := hknows
      exact hs.items_eq
  sync p next hn hcares := by
    rcases p with p | p <;> cases p <;> simp [caresForItems] at hcares <;>
      simp [Instr.next?, branch, statement] at hn <;> subst hn <;> simp [caresForItems, Instr.Signals]
  act s t choice f d next hI hf hd := by
    obtain ⟨q, xs, hs⟩ := hI
    have he := effect_of_act hf hd
    have hbusy := hs.busy t
    have hitems := hs.items_eq
    generalize s.pc t = p at he hbusy
    cases he with
    | added =>
      simp only [items, caresForItems, List.length_append, List.length_singleton, Bool.toNat_false,
        Bool.toNat_true]
      omega
    | removed =>
      obtain ⟨rest, rfl⟩ := List.head?_eq_some_iff.mp (hbusy rfl).2
      simp only [items, List.length_cons] at hitems
      simp only [items, caresForItems, List.length_append, List.length_singleton, Bool.not_false,
        Bool.not_true, Bool.toNat_false, Bool.toNat_true]
      omega
    | write h => cases h <;> exact le_refl _
    | _ => exact le_refl _

theorem caringForRoom (size : Nat) :
    Caring (code (τ := τ) size) (Reached size) .notFull caresForRoom (room size) where
  wakes p m next hc := by
    obtain ⟨-, -, rfl⟩ | ⟨h, -⟩ := wait_cases hc
    · rfl
    · simp at h
  checked s t m next hI hc := by
    obtain ⟨q, xs, hs⟩ := hI
    obtain ⟨-, hp, -⟩ | ⟨h, -⟩ := wait_cases hc
    · have hknows := (hs.busy t (by rw [hp]; rfl)).2
      rw [hp] at hknows
      have hfull : xs.length = size := hknows
      unfold room
      rw [hs.items_eq, hfull, Nat.sub_self]
    · simp at h
  sync p next hn hcares := by
    rcases p with p | p <;> cases p <;> simp [caresForRoom] at hcares <;>
      simp [Instr.next?, branch, statement] at hn <;> subst hn <;> simp [caresForRoom, Instr.Signals]
  act s t choice f d next hI hf hd := by
    obtain ⟨q, xs, hs⟩ := hI
    have he := effect_of_act hf hd
    have hbusy := hs.busy t
    have hitems := hs.items_eq
    generalize s.pc t = p at he hbusy
    cases he with
    | added =>
      have hlt : xs.length < size := (hbusy rfl).2
      have hline := congrArg List.length hs.line
      rw [List.length_append] at hline
      simp only [room, items, caresForRoom, List.length_append, List.length_singleton, Bool.not_false,
        Bool.not_true, Bool.toNat_false, Bool.toNat_true]
      omega
    | removed =>
      simp only [room, items, caresForRoom, List.length_append, List.length_singleton, Bool.toNat_false,
        Bool.toNat_true]
      omega
    | goes =>
      simp only [caresForRoom, Bool.not_false, Bool.not_true, Bool.toNat_false, Bool.toNat_true]
      omega
    | write h => cases h <;> exact le_refl _
    | _ => exact le_refl _

/-- All consumers sleep though there is an item, and nobody is about to wake one. -/
def ItemStranded (s : State τ) : Prop :=
  items s.data ≠ 0 ∧ (∀ t, isConsumer (s.pc t) = true → t ∈ s.waiters .notEmpty) ∧
    ∀ t, announcesItem (s.pc t) = false

/-- All producers with values left sleep though there is room, and nobody is about to wake one. -/
def RoomStranded (size : Nat) (s : State τ) : Prop :=
  room size s.data ≠ 0 ∧ (∃ t, unfinished (s.data.i t) (s.pc t) = true) ∧
    (∀ t, unfinished (s.data.i t) (s.pc t) = true → t ∈ s.waiters .notFull) ∧
      ∀ t, s.pc t ≠ .consumer .signal

theorem reached {pc : τ → Pc} (hsize : 1 ≤ size) (hpc : ∀ t, Entry (pc t)) {buf : Nat → Int32} :
    ∀ s, Reaches (Machine.step (code size)) (fun _ _ => True) (init pc buf) s → Reached size s :=
  fun _ h => consistent hsize hpc h

theorem isConsumer_of_next {p q : Pc} (h : (code size p : Op τ).next? = some q) :
    isConsumer q = isConsumer p := by
  rcases p with p | p <;> cases p <;> simp [Instr.next?, branch, statement] at h <;> subst h <;> rfl

theorem isConsumer_of_effect {t : τ} {d d' : Fifo τ} {p q : Pc} (h : Effect size t d p q d') :
    isConsumer q = isConsumer p := by
  cases h with
  | write h => cases h <;> rfl
  | _ => rfl

theorem isConsumer_reached {pc : τ → Pc} {buf : Nat → Int32} {s : State τ}
    (h : Reaches (Machine.step (code size)) (fun _ _ => True) (init pc buf) s) (t : τ) :
    isConsumer (s.pc t) = isConsumer (pc t) := by
  induction h with
  | start => rfl
  | @next s s' e _ _ he ih =>
    rw [← ih]
    cases e with
    | spurious c u =>
      obtain ⟨-, rfl⟩ := step_spurious he
      rfl
    | run u choice woken =>
      have self : isConsumer (s'.pc u) = isConsumer (s.pc u) := by
        obtain ⟨next, hpc, ⟨hn, -⟩ | heff⟩ := step_effect he
        · rw [hpc, Function.update_self, isConsumer_of_next hn]
        · rw [hpc, Function.update_self, isConsumer_of_effect heff]
      exact forall_pc_of_step (P := fun v p => isConsumer p = isConsumer (s.pc v)) he
        (fun _ => rfl) self t

variable [Fintype τ]

theorem not_itemStranded (hsize : 1 ≤ size) {pc : τ → Pc} (hpc : ∀ t, Entry (pc t))
    (hsome : ∃ t, isConsumer (pc t) = true) {buf : Nat → Int32} {s : State τ}
    (h : Reaches (Machine.step (code size)) (fun _ _ => True) (init pc buf) s) : ¬ItemStranded s := by
  rintro ⟨hitems, hasleep, hquiet⟩
  have hfunded := (caringForItems size).reaches (reached hsize hpc) h
  obtain ⟨c, hc⟩ := hsome
  have hwaits := hasleep c (by rw [isConsumer_reached h c, hc])
  obtain ⟨t, hcares, hawake⟩ := hfunded.exists_awake (Finset.ne_empty_of_mem hwaits) hitems
  have hno := hquiet t
  have hsleeps := hasleep t
  cases hp : s.pc t with
  | consumer p =>
    rw [hp] at hsleeps
    exact hawake (hsleeps rfl)
  | producer p => cases p <;> simp [hp, caresForItems, announcesItem] at hcares hno

theorem not_roomStranded (hsize : 1 ≤ size) {pc : τ → Pc} (hpc : ∀ t, Entry (pc t))
    {buf : Nat → Int32} {s : State τ}
    (h : Reaches (Machine.step (code size)) (fun _ _ => True) (init pc buf) s) :
    ¬RoomStranded size s := by
  rintro ⟨hroom, ⟨u, hu⟩, hasleep, hquiet⟩
  have hfunded := (caringForRoom size).reaches (reached hsize hpc) h
  obtain ⟨t, hcares, hawake⟩ := hfunded.exists_awake (Finset.ne_empty_of_mem (hasleep u hu)) hroom
  have hno := hquiet t
  have hsleeps := hasleep t
  cases hp : s.pc t with
  | consumer p => cases p <;> simp [hp, caresForRoom] at hcares hno
  | producer p =>
    apply hawake
    apply hsleeps
    rw [hp]
    cases p <;> simp [hp, caresForRoom, unfinished] at hcares ⊢

/-- No wakeup is lost as long as there is a consumer to wake. -/
theorem no_lost_wakeup {size : Nat} (hsize : 1 ≤ size) {pc : τ → Pc} (hpc : ∀ t, Entry (pc t))
    {buf : Nat → Int32} {s : State τ}
    (h : Reaches (Machine.step (code size)) (fun _ _ => True) (init pc buf) s) :
    ((∃ t, isConsumer (pc t) = true) → ¬ItemStranded s) ∧ ¬RoomStranded size s :=
  ⟨fun hsome => not_itemStranded hsize hpc hsome h, not_roomStranded hsize hpc h⟩

/-- The consumer sleeps beside an item, and the producer is about to signal. -/
theorem no_lost_wakeup_announced : ∃ s, Reaches (Machine.step (code 1)) (fun _ _ => True)
    (init pair fun _ => 0) s ∧ (items s.data = 1 ∧ 1 ∈ s.waiters .notEmpty) ∧
      ¬ItemStranded s ∧ ¬RoomStranded 1 s := by
  have run : ∃ s, Reaches (Machine.step (code 1)) (fun _ _ => True) (init pair fun _ => 0) s ∧
      items s.data = 1 ∧ 1 ∈ s.waiters .notEmpty :=
    exists_reaches (List.replicate 3 (go 1) ++ List.replicate 10 (go 0)) (by decide)
  obtain ⟨s, hs, hp⟩ := run
  have h := no_lost_wakeup (le_refl 1) (by decide) hs
  exact ⟨s, hs, hp, h.1 ⟨1, rfl⟩, h.2⟩

/-- Without consumers an item stays in the buffer, and there is nobody to wake. -/
theorem item_stays_without_consumers : ∃ s, Reaches (Machine.step (code 1)) (fun _ _ => True)
    (init (fun _ : Fin 1 => .producer .test) fun _ => 0) s ∧ ItemStranded s := by
  have run : ∃ s, Reaches (Machine.step (code 1)) (fun _ _ => True)
      (init (fun _ : Fin 1 => .producer .test) fun _ => 0) s ∧
        items s.data ≠ 0 ∧ ∀ t, s.pc t = .producer .test :=
    exists_reaches (List.replicate 11 (go 0)) (by decide)
  obtain ⟨s, hs, hitems, hp⟩ := run
  refine ⟨s, hs, hitems, fun t ht => ?_, fun t => ?_⟩
  · rw [hp t] at ht
    simp [isConsumer] at ht
  · rw [hp t]
    rfl

end ProducerConsumer

end TcpAndParallel
