import Mathlib.Data.List.FinRange
import Mathlib.Logic.Function.Basic
import TcpAndParallel.Runs

namespace TcpAndParallel

namespace Schedule

/-- `DEFAULT_USER_TIME_SLICE` and `SECONDARY_USER_TIME_SLICE`. -/
def defaultUserTimeSlice : Nat := 300

def secondaryUserTimeSlice : Nat := 150

/-- `struct schedproc`; the only flag is `IN_USE`. -/
structure Schedproc where
  endpoint : Int
  parent : Int
  nice : Int
  priority : Nat
  maxPriority : Nat
  timeSlice : Nat
  inUse : Bool
  deriving DecidableEq

/-- The fields of a message that the scheduler reads or sets. -/
structure Message where
  source : Int
  endpoint : Int
  parent : Int
  nice : Int
  scheduler : Int
  deriving DecidableEq

inductive Reply
  | ok
  | badSrcDst
  | perm
  | code (rv : Int)
  deriving DecidableEq

/-- The value of a kernel call, zero for success. -/
def Reply.ofKernel (rv : Int) : Reply := if rv ≠ 0 then .code rv else .ok

/-- A call of `sys_schedule`. -/
structure Quantum where
  endpoint : Int
  priority : Nat
  timeSlice : Nat
  deriving DecidableEq

/-- The state of the scheduler for `n` slots. `scheduled` are the calls of `sys_schedule`, the
latest first; `chosen` is the slice that the most recent `balance_queues` chose. A process that is
its own parent is the root of a line, which its descendants continue, and `origin` is the choice
that was in force when the root of the line was started. -/
structure Sched (n : Nat) where
  schedproc : Fin n → Schedproc
  duts : Nat
  scheduled : List Quantum
  chosen : Option Nat
  origin : Fin n → Option Nat

def boot (n : Nat) : Sched n where
  schedproc _ := ⟨0, 0, 0, 0, 0, 0, false⟩
  duts := defaultUserTimeSlice
  scheduled := []
  chosen := none
  origin _ := none

/-- The functions of the scheduler's utilities and the constants of the kernel's headers. -/
structure Utility (n : Nat) where
  isokendpt : (Fin n → Schedproc) → Int → Except Int (Fin n)
  isemtyendpt : (Fin n → Schedproc) → Int → Except Int (Fin n)
  niceToPriority : Int → Except Int Nat
  isFromPm : Message → Bool
  minUserQ : Nat
  userQ : Nat
  schedProcNr : Int

def sliceFor (nrProcs : Nat) : Nat :=
  if nrProcs < 15 then defaultUserTimeSlice
  else if nrProcs < 75 then secondaryUserTimeSlice
  else defaultUserTimeSlice

variable {n : Nat}

namespace Sched

def set (p : Fin n) (rmp : Schedproc) (s : Sched n) : Sched n :=
  { s with schedproc := Function.update s.schedproc p rmp }

def scheduleProcess (p : Fin n) (rv : Int) (s : Sched n) : Reply × Sched n :=
  let rmp := s.schedproc p
  (.ofKernel rv, { s with scheduled := ⟨rmp.endpoint, rmp.priority, rmp.timeSlice⟩ :: s.scheduled })

def inUse (s : Sched n) (p : Fin n) : Bool := (s.schedproc p).inUse

end Sched

def doNoquantum (u : Utility n) (source kernel : Int) (s : Sched n) : Reply × Sched n :=
  match u.isokendpt s.schedproc source with
  | .error _ => (.badSrcDst, s)
  | .ok p =>
    let rmp := s.schedproc p
    let rmp := if rmp.priority < u.minUserQ then { rmp with priority := rmp.priority + 1 } else rmp
    (s.set p rmp).scheduleProcess p kernel

def doStopScheduling (u : Utility n) (m : Message) (s : Sched n) : Reply × Sched n :=
  if u.isFromPm m then
    match u.isokendpt s.schedproc m.endpoint with
    | .error _ => (.badSrcDst, s)
    | .ok p => (.ok, s.set p { s.schedproc p with inUse := false })
  else (.perm, s)

def populate (m : Message) (p : Fin n) (s : Sched n) : Sched n :=
  s.set p { s.schedproc p with endpoint := m.endpoint, parent := m.parent, nice := m.nice }

def setMaxPriority (maxPriority : Nat) (p : Fin n) (s : Sched n) : Sched n :=
  s.set p { s.schedproc p with maxPriority }

/-- "Inherit current priority and time slice from parent." -/
def inherit (u : Utility n) (m : Message) (p : Fin n) (s : Sched n) : Except Int (Sched n) :=
  if m.endpoint = m.parent then
    -- "init, which is the first process scheduled, and the parent of itself"
    .ok { s.set p { s.schedproc p with priority := u.userQ, timeSlice := s.duts } with
      origin := Function.update s.origin p (some (s.chosen.getD defaultUserTimeSlice)) }
  else
    match u.isokendpt s.schedproc m.parent with
    | .error rv => .error rv
    | .ok parent => .ok { s.set p { s.schedproc p with
          priority := (s.schedproc parent).priority
          timeSlice := (s.schedproc parent).timeSlice } with
        origin := Function.update s.origin p (s.origin parent) }

/-- The end of `do_start_scheduling`, from `sys_schedctl` on. -/
def takeOver (u : Utility n) (m : Message) (p : Fin n) (schedctl schedule : Int) (s : Sched n) :
    Reply × Message × Sched n :=
  if schedctl ≠ 0 then (.code schedctl, m, s)
  else
    let r := (s.set p { s.schedproc p with inUse := true }).scheduleProcess p schedule
    if r.1 ≠ .ok then (r.1, m, r.2) else (.ok, { m with scheduler := u.schedProcNr }, r.2)

def doStartScheduling (u : Utility n) (m : Message) (schedctl schedule : Int) (s : Sched n) :
    Reply × Message × Sched n :=
  if u.isFromPm m then
    match u.isemtyendpt s.schedproc m.endpoint with
    | .error rv => (.code rv, m, s)
    | .ok p =>
      match u.niceToPriority m.nice with
      | .error rv => (.code rv, m, populate m p s)
      | .ok maxPriority =>
        let s := setMaxPriority maxPriority p (populate m p s)
        match inherit u m p s with
        | .error rv => (.code rv, m, s)
        | .ok s => takeOver u m p schedctl schedule s
  else (.perm, m, s)

def doNice (u : Utility n) (m : Message) (kernel : Int) (s : Sched n) : Reply × Sched n :=
  if u.isFromPm m then
    match u.isokendpt s.schedproc m.endpoint with
    | .error _ => (.badSrcDst, s)
    | .ok p =>
      match u.niceToPriority m.nice with
      | .error rv => (.code rv, s)
      | .ok newQ =>
        let old := s.schedproc p
        let r := (s.set p { old with maxPriority := newQ, priority := newQ, nice := m.nice
          }).scheduleProcess p kernel
        if r.1 ≠ .ok then
          (r.1, r.2.set p { r.2.schedproc p with
            priority := old.priority, maxPriority := old.maxPriority, nice := old.nice })
        else r
  else (.perm, s)

/-- A round of the loop of `balance_queues`, with the count so far. -/
def balanceSlot (kernel : Fin n → Int) (acc : Nat × Sched n) (p : Fin n) : Nat × Sched n :=
  let rmp := acc.2.schedproc p
  if rmp.inUse then
    if rmp.maxPriority < rmp.priority then
      (acc.1 + 1, ((acc.2.set p { rmp with priority := rmp.priority - 1 }).scheduleProcess p
        (kernel p)).2)
    else (acc.1 + 1, acc.2)
  else acc

def balanceQueues (kernel : Fin n → Int) (s : Sched n) : Sched n :=
  let acc := (List.finRange n).foldl (balanceSlot kernel) (0, s)
  { acc.2 with
    duts := sliceFor acc.1
    chosen := some (sliceFor ((List.finRange n).countP s.inUse)) }

/-- What the scheduler is called for, with the answers of the kernel. -/
inductive Event (n : Nat)
  | noquantum (source kernel : Int)
  | stop (m : Message)
  | start (m : Message) (schedctl schedule : Int)
  | nice (m : Message) (kernel : Int)
  | balance (kernel : Fin n → Int)

def step (u : Utility n) (s : Sched n) : Event n → Except Empty (Sched n)
  | .noquantum source kernel => .ok (doNoquantum u source kernel s).2
  | .stop m => .ok (doStopScheduling u m s).2
  | .start m schedctl schedule => .ok (doStartScheduling u m schedctl schedule s).2.2
  | .nice m kernel => .ok (doNice u m kernel s).2
  | .balance kernel => .ok (balanceQueues kernel s)

/-- A process that starts after a balance is scheduled with the slice that was chosen last. -/
def TakesEffect (u : Utility n) (s : Sched n) : Event n → Prop
  | .start m schedctl schedule => ∀ c ∈ s.chosen,
    (doStartScheduling u m schedctl schedule s).1 = .ok →
      ((doStartScheduling u m schedctl schedule s).2.2.scheduled.head?.map
        fun q => (q.endpoint, q.timeSlice)) = some (m.endpoint, c)
  | _ => True

/-- The parent from which a process takes its slice, once its slot is filled in. -/
def InheritsFrom (u : Utility n) (m : Message) (s : Sched n) (parent : Fin n) : Prop :=
  u.isFromPm m = true ∧ m.endpoint ≠ m.parent ∧ ∃ p maxPriority,
    u.isemtyendpt s.schedproc m.endpoint = .ok p ∧ u.niceToPriority m.nice = .ok maxPriority ∧
    u.isokendpt (setMaxPriority maxPriority p (populate m p s)).schedproc m.parent = .ok parent

/-- A process that starts after a balance is its own parent, or the line of its parent began under
the choice that is in force. -/
def SameChoice (u : Utility n) (s : Sched n) : Event n → Prop
  | .start m schedctl schedule => ∀ c ∈ s.chosen, schedctl = 0 → schedule = 0 →
    ∀ parent, InheritsFrom u m s parent → s.origin parent = some c
  | _ => True

/-- The step leaves the slices and what is known of them alone. -/
structure Keeps (s t : Sched n) : Prop where
  slices : ∀ p, (t.schedproc p).timeSlice = (s.schedproc p).timeSlice
  duts : t.duts = s.duts
  chosen : t.chosen = s.chosen
  origin : t.origin = s.origin

theorem Keeps.refl (s : Sched n) : Keeps s s := ⟨fun _ => rfl, rfl, rfl, rfl⟩

theorem Keeps.trans {s t r : Sched n} (h : Keeps s t) (k : Keeps t r) : Keeps s r :=
  ⟨fun p => (k.slices p).trans (h.slices p), k.duts.trans h.duts, k.chosen.trans h.chosen,
    k.origin.trans h.origin⟩

theorem keeps_set {s : Sched n} {p : Fin n} {rmp : Schedproc}
    (h : rmp.timeSlice = (s.schedproc p).timeSlice) : Keeps s (s.set p rmp) := by
  refine ⟨fun q => ?_, rfl, rfl, rfl⟩
  show (Function.update s.schedproc p rmp q).timeSlice = _
  by_cases hq : q = p
  · rw [hq, Function.update_self, h]
  · rw [Function.update_of_ne hq]

theorem keeps_scheduleProcess (p : Fin n) (rv : Int) (s : Sched n) :
    Keeps s (s.scheduleProcess p rv).2 := ⟨fun _ => rfl, rfl, rfl, rfl⟩

theorem keeps_doNoquantum (u : Utility n) (source kernel : Int) (s : Sched n) :
    Keeps s (doNoquantum u source kernel s).2 := by
  simp only [doNoquantum]
  split
  next => exact .refl s
  next p hp =>
    refine Keeps.trans (keeps_set ?_) (keeps_scheduleProcess p kernel _)
    split <;> rfl

theorem keeps_doStopScheduling (u : Utility n) (m : Message) (s : Sched n) :
    Keeps s (doStopScheduling u m s).2 := by
  simp only [doStopScheduling]
  split
  next =>
    split
    next => exact .refl s
    next => exact keeps_set rfl
  next => exact .refl s

theorem keeps_doNice (u : Utility n) (m : Message) (kernel : Int) (s : Sched n) :
    Keeps s (doNice u m kernel s).2 := by
  simp only [doNice]
  split
  next =>
    split
    next => exact .refl s
    next p hp =>
      split
      next => exact .refl s
      next newQ hq =>
        have changed : Keeps s (s.set p { s.schedproc p with
            maxPriority := newQ, priority := newQ, nice := m.nice }) := keeps_set rfl
        have scheduled := changed.trans (keeps_scheduleProcess p kernel _)
        split
        next => exact scheduled.trans (keeps_set rfl)
        next => exact scheduled
  next => exact .refl s

theorem keeps_populate (m : Message) (maxPriority : Nat) (p : Fin n) (s : Sched n) :
    Keeps s (setMaxPriority maxPriority p (populate m p s)) := by
  have fields : Keeps s (populate m p s) := keeps_set rfl
  have priority : Keeps (populate m p s) (setMaxPriority maxPriority p (populate m p s)) :=
    keeps_set rfl
  exact fields.trans priority

theorem keeps_takeOver (u : Utility n) (m : Message) (p : Fin n) (schedctl schedule : Int)
    (s : Sched n) : Keeps s (takeOver u m p schedctl schedule s).2.2 := by
  simp only [takeOver]
  split
  next => exact .refl s
  next =>
    have used : Keeps s (s.set p { s.schedproc p with inUse := true }) := keeps_set rfl
    have scheduled := used.trans (keeps_scheduleProcess p schedule _)
    split <;> exact scheduled

theorem inUse_set {s : Sched n} {p : Fin n} {rmp : Schedproc} (h : rmp.inUse = s.inUse p) :
    (s.set p rmp).inUse = s.inUse := by
  funext q
  show (Function.update s.schedproc p rmp q).inUse = _
  by_cases hq : q = p
  · rw [hq, Function.update_self, h]
  · rw [Function.update_of_ne hq]
    rfl

theorem balanceSlot_spec (kernel : Fin n → Int) (k : Nat) (s : Sched n) (p : Fin n) :
    ∃ t, balanceSlot kernel (k, s) p = (k + (if s.inUse p then 1 else 0), t) ∧
      Keeps s t ∧ t.inUse = s.inUse := by
  by_cases hu : s.inUse p
  · have hs : (s.schedproc p).inUse = true := hu
    simp only [balanceSlot]
    rw [if_pos hs, if_pos hu]
    split
    next =>
      have raised : Keeps s (s.set p { s.schedproc p with
          priority := (s.schedproc p).priority - 1 }) := keeps_set rfl
      exact ⟨_, rfl, raised.trans (keeps_scheduleProcess p (kernel p) _), inUse_set rfl⟩
    next => exact ⟨s, rfl, .refl s, rfl⟩
  · have hs : ¬(s.schedproc p).inUse = true := hu
    simp only [balanceSlot]
    rw [if_neg hs, if_neg hu]
    exact ⟨s, rfl, .refl s, rfl⟩

theorem balance_loop (kernel : Fin n → Int) (ps : List (Fin n)) (k : Nat) (s : Sched n) :
    (ps.foldl (balanceSlot kernel) (k, s)).1 = k + ps.countP s.inUse ∧
      Keeps s (ps.foldl (balanceSlot kernel) (k, s)).2 := by
  induction ps generalizing k s with
  | nil => exact ⟨rfl, .refl s⟩
  | cons p ps ih =>
    obtain ⟨t, ht, keeps, used⟩ := balanceSlot_spec kernel k s p
    obtain ⟨count, rest⟩ := ih (k + if s.inUse p then 1 else 0) t
    rw [List.foldl_cons, ht, List.countP_cons, count, used]
    exact ⟨by omega, keeps.trans rest⟩

/-- What the slots hold of the history: the slice of each is the choice at the origin of its line,
and the global is the last choice. No choice is zero, as the slice of a fresh slot is. -/
structure Inv (s : Sched n) : Prop where
  slices : ∀ p, (s.schedproc p).timeSlice = (s.origin p).getD 0
  duts : s.duts = s.chosen.getD defaultUserTimeSlice
  chosen : ∀ c ∈ s.chosen, c ≠ 0

theorem boot_inv : Inv (boot n) where
  slices _ := rfl
  duts := rfl
  chosen c hc := by simp [boot] at hc

theorem Inv.keeps {s t : Sched n} (h : Inv s) (k : Keeps s t) : Inv t where
  slices p := by rw [k.slices, k.origin, h.slices]
  duts := by rw [k.duts, k.chosen, h.duts]
  chosen c hc := h.chosen c (k.chosen ▸ hc)

theorem sliceFor_ne_zero (nrProcs : Nat) : sliceFor nrProcs ≠ 0 := by
  simp only [sliceFor, defaultUserTimeSlice, secondaryUserTimeSlice]
  split
  · omega
  · split <;> omega

theorem Inv.balance {s : Sched n} (h : Inv s) (kernel : Fin n → Int) :
    Inv (balanceQueues kernel s) := by
  obtain ⟨count, keeps⟩ := balance_loop kernel (List.finRange n) 0 s
  have kept := h.keeps keeps
  refine ⟨kept.slices, ?_, ?_⟩
  · simp only [balanceQueues, count, Option.getD_some, Nat.zero_add]
  · intro c hc
    obtain rfl := Option.some.inj hc
    exact sliceFor_ne_zero _

theorem Inv.set {s : Sched n} (h : Inv s) {p : Fin n} {rmp : Schedproc} {o : Option Nat}
    (slice : rmp.timeSlice = o.getD 0) :
    Inv { s.set p rmp with origin := Function.update s.origin p o } where
  slices q := by
    show (Function.update s.schedproc p rmp q).timeSlice = (Function.update s.origin p o q).getD 0
    by_cases hq : q = p
    · rw [hq, Function.update_self, Function.update_self, slice]
    · rw [Function.update_of_ne hq, Function.update_of_ne hq, h.slices]
  duts := h.duts
  chosen := h.chosen

theorem Inv.inherit {s t : Sched n} {u : Utility n} {m : Message} {p : Fin n} (h : Inv s)
    (ht : inherit u m p s = .ok t) : Inv t := by
  simp only [Schedule.inherit] at ht
  split at ht
  next =>
    obtain rfl := Except.ok.inj ht
    exact h.set h.duts
  next =>
    split at ht
    next => simp at ht
    next parent hp =>
      obtain rfl := Except.ok.inj ht
      exact h.set (h.slices parent)

theorem Inv.start {s : Sched n} (h : Inv s) (u : Utility n) (m : Message) (schedctl schedule : Int) :
    Inv (doStartScheduling u m schedctl schedule s).2.2 := by
  simp only [doStartScheduling]
  split
  next =>
    split
    next => exact h
    next p hp =>
      split
      next =>
        have fields : Keeps s (populate m p s) := keeps_set rfl
        exact h.keeps fields
      next maxPriority hn =>
        have filled := h.keeps (keeps_populate m maxPriority p s)
        split
        next => exact filled
        next t ht => exact (filled.inherit ht).keeps (keeps_takeOver u m p schedctl schedule t)
  next => exact h

theorem Inv.step {s t : Sched n} {u : Utility n} {e : Event n} (h : Inv s)
    (ht : step u s e = .ok t) : Inv t := by
  cases e with
  | noquantum source kernel =>
    obtain rfl := Except.ok.inj ht
    exact h.keeps (keeps_doNoquantum u source kernel s)
  | stop m =>
    obtain rfl := Except.ok.inj ht
    exact h.keeps (keeps_doStopScheduling u m s)
  | start m schedctl schedule =>
    obtain rfl := Except.ok.inj ht
    exact h.start u m schedctl schedule
  | nice m kernel =>
    obtain rfl := Except.ok.inj ht
    exact h.keeps (keeps_doNice u m kernel s)
  | balance kernel =>
    obtain rfl := Except.ok.inj ht
    exact h.balance kernel

/-- The kernel calls of a start succeed, and the last of them hands out what the slot holds. -/
theorem takeOver_spec (u : Utility n) (m : Message) (p : Fin n) (schedctl schedule : Int)
    (s : Sched n) : ((takeOver u m p schedctl schedule s).1 = .ok ↔ schedctl = 0 ∧ schedule = 0) ∧
      (schedctl = 0 → (takeOver u m p schedctl schedule s).2.2.scheduled.head? =
        some ⟨(s.schedproc p).endpoint, (s.schedproc p).priority, (s.schedproc p).timeSlice⟩) := by
  by_cases hc : schedctl = 0
  · by_cases hs : schedule = 0
    · simp [takeOver, hc, hs, Sched.scheduleProcess, Reply.ofKernel, Sched.set]
    · simp [takeOver, hc, hs, Sched.scheduleProcess, Reply.ofKernel, Sched.set]
  · simp [takeOver, hc]

/-- A process takes the global slice if it is its own parent, else the slice of its parent. -/
theorem inherit_spec {u : Utility n} {m : Message} {p : Fin n} {s t : Sched n}
    (h : inherit u m p s = .ok t) : (t.schedproc p).endpoint = (s.schedproc p).endpoint ∧
      (m.endpoint = m.parent ∧ (t.schedproc p).timeSlice = s.duts ∨
        m.endpoint ≠ m.parent ∧ ∃ parent, u.isokendpt s.schedproc m.parent = .ok parent ∧
          (t.schedproc p).timeSlice = (s.schedproc parent).timeSlice) := by
  simp only [inherit] at h
  split at h
  next he =>
    obtain rfl := Except.ok.inj h
    simp [Sched.set, he]
  next hne =>
    split at h
    next => simp at h
    next parent hp =>
      obtain rfl := Except.ok.inj h
      exact ⟨by simp [Sched.set], .inr ⟨hne, parent, hp, by simp [Sched.set]⟩⟩

theorem exists_inherit {u : Utility n} {m : Message} {s : Sched n} {parent : Fin n} (p : Fin n)
    (ne : m.endpoint ≠ m.parent) (h : u.isokendpt s.schedproc m.parent = .ok parent) :
    ∃ t, inherit u m p s = .ok t := by
  simp only [inherit, if_neg ne, h]
  exact ⟨_, rfl⟩

theorem start_eq {u : Utility n} {m : Message} {p : Fin n} {maxPriority : Nat} {s t : Sched n}
    (pm : u.isFromPm m = true) (slot : u.isemtyendpt s.schedproc m.endpoint = .ok p)
    (nice : u.niceToPriority m.nice = .ok maxPriority)
    (ht : inherit u m p (setMaxPriority maxPriority p (populate m p s)) = .ok t)
    (schedctl schedule : Int) :
    doStartScheduling u m schedctl schedule s = takeOver u m p schedctl schedule t := by
  simp only [doStartScheduling, pm, if_true, slot, nice, ht]

theorem exists_of_start_ok {u : Utility n} {m : Message} {schedctl schedule : Int} {s : Sched n}
    (h : (doStartScheduling u m schedctl schedule s).1 = .ok) :
    u.isFromPm m = true ∧ ∃ p maxPriority t, u.isemtyendpt s.schedproc m.endpoint = .ok p ∧
      u.niceToPriority m.nice = .ok maxPriority ∧
      inherit u m p (setMaxPriority maxPriority p (populate m p s)) = .ok t := by
  simp only [doStartScheduling] at h
  split at h
  next pm =>
    split at h
    next => simp at h
    next p slot =>
      split at h
      next => simp at h
      next maxPriority nice =>
        split at h
        next => simp at h
        next t ht => exact ⟨pm, p, maxPriority, t, slot, nice, ht⟩
  next => simp at h

theorem populate_endpoint (m : Message) (maxPriority : Nat) (p : Fin n) (s : Sched n) :
    ((setMaxPriority maxPriority p (populate m p s)).schedproc p).endpoint = m.endpoint := by
  simp [setMaxPriority, populate, Sched.set]

theorem Inv.slice_eq_iff {s : Sched n} (h : Inv s) {c : Nat} (hc : c ∈ s.chosen) (p : Fin n) :
    (s.schedproc p).timeSlice = c ↔ s.origin p = some c := by
  have ne := h.chosen c hc
  rw [h.slices]
  cases s.origin p with
  | none => simp [ne.symm]
  | some o => simp

theorem takesEffect_of_sameChoice {s : Sched n} (h : Inv s) {u : Utility n} {e : Event n}
    (same : SameChoice u s e) : TakesEffect u s e := by
  cases e with
  | noquantum | stop | nice | balance => trivial
  | start m schedctl schedule =>
    intro c hc ok
    obtain ⟨pm, p, maxPriority, t, slot, nice, ht⟩ := exists_of_start_ok ok
    rw [start_eq pm slot nice ht] at ok ⊢
    obtain ⟨iff, head⟩ := takeOver_spec u m p schedctl schedule t
    obtain ⟨hctl, hsched⟩ := iff.mp ok
    have keeps := keeps_populate m maxPriority p s
    obtain ⟨endpoint, source⟩ := inherit_spec ht
    have slice : (t.schedproc p).timeSlice = c := by
      rcases source with ⟨-, duts⟩ | ⟨ne, parent, hparent, inherited⟩
      · rw [duts, keeps.duts, h.duts, Option.mem_def.mp hc, Option.getD_some]
      · rw [inherited, keeps.slices]
        exact (h.slice_eq_iff hc parent).mpr
          (same c hc hctl hsched parent ⟨pm, ne, p, maxPriority, slot, nice, hparent⟩)
    rw [head hctl, Option.map_some, slice, endpoint, populate_endpoint]

theorem sameChoice_of_takesEffect {s : Sched n} (h : Inv s) {u : Utility n} {e : Event n}
    (takes : TakesEffect u s e) : SameChoice u s e := by
  cases e with
  | noquantum | stop | nice | balance => trivial
  | start m schedctl schedule =>
    rintro c hc hctl hsched parent ⟨pm, ne, p, maxPriority, slot, nice, hparent⟩
    obtain ⟨t, ht⟩ := exists_inherit p ne hparent
    obtain ⟨iff, head⟩ := takeOver_spec u m p schedctl schedule t
    have given := takes c hc (by rw [start_eq pm slot nice ht, iff]; exact ⟨hctl, hsched⟩)
    rw [start_eq pm slot nice ht, head hctl, Option.map_some] at given
    have slice : (t.schedproc p).timeSlice = c := (Prod.mk.inj (Option.some.inj given)).2
    obtain ⟨-, ⟨he, -⟩ | ⟨-, parent', hparent', inherited⟩⟩ := inherit_spec ht
    · exact absurd he ne
    · obtain rfl : parent' = parent := Except.ok.inj (hparent'.symm.trans hparent)
      rw [inherited, (keeps_populate m maxPriority p s).slices] at slice
      exact (h.slice_eq_iff hc parent').mp slice

/-- In a run every process that starts after a balance gets the slice that was chosen last exactly
when each of them is its own parent or of a line that began under this choice: a balance sets
the global alone, and a fork copies the slice of the parent's slot. -/
theorem takesEffect_iff_sameChoice (u : Utility n) (es : List (Event n)) :
    Meets (step u) (TakesEffect u) (boot n) es ↔ Meets (step u) (SameChoice u) (boot n) es := by
  refine meets_iff_meets (fun s e t hs ht => Inv.step hs ht) (fun s e hs => ?_) boot_inv
  exact ⟨sameChoice_of_takesEffect hs, takesEffect_of_sameChoice hs⟩

instance TakesEffect.decide (u : Utility n) (s : Sched n) : ∀ e, Decidable (TakesEffect u s e)
  | .start m schedctl schedule => inferInstanceAs (Decidable (∀ c ∈ s.chosen,
    (doStartScheduling u m schedctl schedule s).1 = .ok →
      ((doStartScheduling u m schedctl schedule s).2.2.scheduled.head?.map
        fun q => (q.endpoint, q.timeSlice)) = some (m.endpoint, c)))
  | .noquantum .. | .stop .. | .nice .. | .balance .. => inferInstanceAs (Decidable True)

/-- Endpoints that are slot numbers, and messages that come from PM, whose endpoint is 0. -/
def slotUtility (n : Nat) : Utility n where
  isokendpt table e :=
    if h : 0 ≤ e ∧ e.toNat < n then
      if e = (table ⟨e.toNat, h.2⟩).endpoint ∧ (table ⟨e.toNat, h.2⟩).inUse then .ok ⟨e.toNat, h.2⟩
      else .error 1
    else .error 2
  isemtyendpt table e :=
    if h : 0 ≤ e ∧ e.toNat < n then
      if (table ⟨e.toNat, h.2⟩).inUse then .error 1 else .ok ⟨e.toNat, h.2⟩
    else .error 2
  niceToPriority _ := .ok 7
  isFromPm m := m.source = 0
  minUserQ := 14
  userQ := 7
  schedProcNr := 4

def fork (i : Nat) : Event 16 := .start ⟨0, i, 0, 0, 0⟩ 0 0

/-- Fifteen processes are scheduled when the queues are balanced, so that the short slice is
chosen; the process that starts next gets the default slice of its parent. -/
theorem fork_keeps_old_slice : ¬Meets (step (slotUtility 16)) (TakesEffect (slotUtility 16)) (boot 16)
    ((List.range 15).map fork ++ [.balance fun _ => 0, fork 15]) := by
  decide +kernel

end Schedule

end TcpAndParallel
