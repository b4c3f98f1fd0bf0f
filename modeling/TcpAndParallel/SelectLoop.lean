import Mathlib.Data.Finset.Basic
import Mathlib.Order.Bounds.Basic
import TcpAndParallel.Runs

namespace TcpAndParallel

namespace SelectLoop

/-- `FD_SETSIZE`: an `fd_set` holds the descriptors below it. -/
def fdSetSize : Nat := 1024

/-- The value of a call, and whether it left `EWOULDBLOCK` in `errno`. -/
structure Result where
  rc : Int
  wouldBlock : Bool

/-- What the system answers to the next call; a step makes one call at most. `readFd` is what
`select` leaves in the set it is given. -/
structure Answers where
  select : Result
  readFd : Finset Nat
  accept : Result
  recv : Result

/-- The points of `connect_accept`: the head of its loop, the test of the `for` loop, and the
rounds of the two inner loops. -/
inductive Point
  | select
  | scan (i : Nat)
  | accept (i : Nat)
  | recv (i : Nat)
  | returned
  deriving DecidableEq

/-- The variables of `connect_accept`. The descriptors `opened` are those that `accept` returned
and that have not been closed since. -/
structure Loop where
  masterSet : Finset Nat
  readFd : Finset Nat
  maxSd : Nat
  descReady : Int
  endServer : Bool
  opened : Finset Nat
  point : Point

/-- What the code gives no meaning to: a descriptor that the set has no room for, and a test of
descriptor `-1`. -/
inductive Fault
  | beyondSet
  | belowSet
  deriving DecidableEq

def start (sock : Nat) : Loop where
  masterSet := {sock}
  readFd := ∅
  maxSd := sock
  descReady := 0
  endServer := false
  opened := ∅
  point := .select

/-- `FD_SET`, which does not test its bound. -/
def fdSet (fd : Nat) (set : Finset Nat) : Except Fault (Finset Nat) :=
  if fd < fdSetSize then .ok (insert fd set) else .error .beyondSet

/-- The scan for the next lower member from `maxSd` on. -/
def lower (set : Finset Nat) : Nat → Option Nat
  | 0 => if 0 ∈ set then some 0 else none
  | maxSd + 1 => if maxSd + 1 ∈ set then some (maxSd + 1) else lower set maxSd

namespace Loop

/-- `close_conn` is set: close the descriptor and take it out of the set. -/
def closeConn (i : Nat) (s : Loop) : Except Fault Loop :=
  let s := { s with
    opened := s.opened.erase i
    masterSet := s.masterSet.erase i
    point := .scan (i + 1) }
  if i = s.maxSd then
    match lower s.masterSet s.maxSd with
    | some maxSd => .ok { s with maxSd }
    | none => .error .belowSet
  else .ok s

/-- The loop after the main loop, and the return. -/
def closeAll (s : Loop) : Loop :=
  { s with opened := s.opened.filter fun fd => ¬(fd ≤ s.maxSd ∧ fd ∈ s.masterSet)
           point := .returned }

def acceptRound (i : Nat) (j : Result) (s : Loop) : Except Fault Loop :=
  if j.rc < 0 then
    .ok { s with endServer := s.endServer || !j.wouldBlock, point := .scan (i + 1) }
  else do
    let masterSet ← fdSet j.rc.toNat s.masterSet
    .ok { s with
      masterSet
      maxSd := if s.maxSd < j.rc.toNat then j.rc.toNat else s.maxSd
      opened := insert j.rc.toNat s.opened }

/-- A round of the loop around `recv`; what is received goes to `queue_connection`. -/
def recvRound (i : Nat) (r : Result) (s : Loop) : Except Fault Loop :=
  if r.rc < 0 then
    if r.wouldBlock then .ok { s with point := .scan (i + 1) } else s.closeConn i
  else if r.rc = 0 then s.closeConn i
  else .ok s

end Loop

/-- `connect_accept` from one of its points to the next. -/
def step (sock : Nat) (s : Loop) (a : Answers) : Except Fault Loop :=
  match s.point with
  | .select =>
    if a.select.rc < 0 then .ok s.closeAll
    else if a.select.rc = 0 then .ok s.closeAll
    else .ok { s with readFd := a.readFd, descReady := a.select.rc, point := .scan 0 }
  | .scan i =>
    if i ≤ s.maxSd ∧ 0 < s.descReady then
      if i ∈ s.readFd then
        .ok { s with
          descReady := s.descReady - 1
          point := if i = sock then .accept i else .recv i }
      else .ok { s with point := .scan (i + 1) }
    else if s.endServer then .ok s.closeAll
    else .ok { s with point := .select }
  | .accept i => s.acceptRound i a.accept
  | .recv i => s.recvRound i a.recv
  | .returned => .ok s

/-- What the loop keeps of the set and its maximum. -/
structure Kept (sock : Nat) (s : Loop) : Prop where
  listening : sock ∈ s.masterSet
  greatest : IsGreatest {fd | fd ∈ s.masterSet} s.maxSd
  clients : ∀ fd ∈ s.masterSet, fd ≠ sock → fd ∈ s.opened

/-- The books are in order whenever an iteration of the loop starts. -/
def InOrder (sock : Nat) (s : Loop) : Prop := s.point = .select → Kept sock s

/-- A descriptor that `accept` returns fits the set. -/
def Fits (s : Loop) (a : Answers) : Prop :=
  ∀ i, s.point = .accept i → a.accept.rc < fdSetSize

theorem lower_mem {set : Finset Nat} {from_ m : Nat} (h : lower set from_ = some m) : m ∈ set := by
  induction from_ with
  | zero =>
    simp only [lower] at h
    split at h
    next hm =>
      obtain rfl := Option.some.inj h
      exact hm
    next => simp at h
  | succ from_ ih =>
    simp only [lower] at h
    split at h
    next hm =>
      obtain rfl := Option.some.inj h
      exact hm
    next => exact ih h

theorem le_of_lower {set : Finset Nat} {from_ m fd : Nat} (h : lower set from_ = some m)
    (mem : fd ∈ set) (le : fd ≤ from_) : fd ≤ m := by
  induction from_ with
  | zero => omega
  | succ from_ ih =>
    simp only [lower] at h
    split at h
    next hm =>
      obtain rfl := Option.some.inj h
      exact le
    next hm =>
      apply ih h
      have : fd ≠ from_ + 1 := fun he => hm (he ▸ mem)
      omega

theorem exists_lower {set : Finset Nat} {from_ fd : Nat} (mem : fd ∈ set) (le : fd ≤ from_) :
    ∃ m, lower set from_ = some m := by
  induction from_ with
  | zero =>
    obtain rfl : fd = 0 := by omega
    exact ⟨0, by simp [lower, mem]⟩
  | succ from_ ih =>
    simp only [lower]
    split
    next => exact ⟨_, rfl⟩
    next hm =>
      apply ih
      have : fd ≠ from_ + 1 := fun he => hm (he ▸ mem)
      omega

theorem lower_greatest {set : Finset Nat} {from_ m : Nat} (h : lower set from_ = some m)
    (above : ∀ fd ∈ set, fd ≤ from_) : IsGreatest {fd | fd ∈ set} m :=
  ⟨lower_mem h, fun _ hf => le_of_lower h hf (above _ hf)⟩

theorem insert_greatest {set : Finset Nat} {m : Nat} (h : IsGreatest {fd | fd ∈ set} m) (j : Nat) :
    IsGreatest {fd | fd ∈ insert j set} (if m < j then j else m) := by
  have hm : (if m < j then j else m) = max j m := by
    split <;> omega
  have hs : {fd | fd ∈ insert j set} = insert j {fd | fd ∈ set} := by
    ext fd
    simp
  rw [hm, hs]
  exact h.insert j

/-- The invariant of the run: until the function returns, the books are in order at every point,
every open client is in the set, and a connection that is read from is not the listening
socket. Afterwards no client is open. -/
structure Inv (sock : Nat) (s : Loop) : Prop where
  kept : s.point ≠ .returned → Kept sock s
  covered : s.point ≠ .returned → s.opened ⊆ s.masterSet
  client : ∀ i, s.point = .recv i → i ≠ sock
  closed : s.point = .returned → s.opened = ∅

variable {sock : Nat} {s t : Loop}

theorem start_inv : Inv sock (start sock) where
  kept _ :=
    { listening := by simp [start]
      greatest := by simp [start, IsGreatest, upperBounds]
      clients := by simp [start] }
  covered _ := by simp [start]
  client _ h := by simp [start] at h
  closed h := by simp [start] at h

theorem Inv.move (h : Inv sock s) (run : s.point ≠ .returned) {readFd : Finset Nat}
    {descReady : Int} {endServer : Bool} {point : Point} (stays : point ≠ .returned)
    (client : ∀ i, point = .recv i → i ≠ sock) :
    Inv sock { s with readFd, descReady, endServer, point } where
  kept _ :=
    { listening := (h.kept run).listening
      greatest := (h.kept run).greatest
      clients := (h.kept run).clients }
  covered _ := h.covered run
  client := client
  closed he := absurd he stays

theorem Inv.closeAll (h : Inv sock s) (run : s.point ≠ .returned) : Inv sock s.closeAll where
  kept he := absurd rfl he
  covered he := absurd rfl he
  client _ he := by simp [Loop.closeAll] at he
  closed _ := by
    refine Finset.filter_eq_empty_iff.mpr fun fd hf => not_not.mpr ?_
    have mem := h.covered run hf
    exact ⟨(h.kept run).greatest.2 mem, mem⟩

theorem closeConn_spec {i : Nat} (kept : Kept sock s) (ne : i ≠ sock) :
    ∃ m, s.closeConn i = .ok { s with
        opened := s.opened.erase i
        masterSet := s.masterSet.erase i
        maxSd := m
        point := .scan (i + 1) } ∧ IsGreatest {fd | fd ∈ s.masterSet.erase i} m := by
  have above : ∀ fd ∈ s.masterSet.erase i, fd ≤ s.maxSd :=
    fun fd hf => kept.greatest.2 (Finset.mem_of_mem_erase hf)
  by_cases hi : i = s.maxSd
  · have listening : sock ∈ s.masterSet.erase i :=
      Finset.mem_erase.mpr ⟨ne.symm, kept.listening⟩
    obtain ⟨m, hm⟩ := exists_lower listening (above sock listening)
    refine ⟨m, ?_, lower_greatest hm above⟩
    simp only [Loop.closeConn, if_pos hi, hm]
  · refine ⟨s.maxSd, by simp only [Loop.closeConn, if_neg hi], ?_, above⟩
    exact Finset.mem_erase.mpr ⟨Ne.symm hi, kept.greatest.1⟩

theorem Inv.closeConn {i : Nat} (h : Inv sock s) (run : s.point ≠ .returned) (ne : i ≠ sock) :
    ∃ t, s.closeConn i = .ok t ∧ Inv sock t := by
  have kept := h.kept run
  obtain ⟨m, hm, greatest⟩ := closeConn_spec kept ne
  refine ⟨_, hm, ?_⟩
  exact
    { kept := fun _ =>
        { listening := Finset.mem_erase.mpr ⟨ne.symm, kept.listening⟩
          greatest := greatest
          clients := by
            intro fd hf hs
            obtain ⟨hi, hf⟩ := Finset.mem_erase.mp hf
            exact Finset.mem_erase.mpr ⟨hi, kept.clients fd hf hs⟩ }
      covered := fun _ => Finset.erase_subset_erase i (h.covered run)
      client := fun _ he => by simp at he
      closed := fun he => by simp at he }

theorem Inv.acceptRound {i : Nat} {j : Result} (h : Inv sock s) (point : s.point = .accept i)
    (fits : j.rc < fdSetSize) : ∃ t, s.acceptRound i j = .ok t ∧ Inv sock t := by
  have run : s.point ≠ .returned := by simp [point]
  by_cases hj : j.rc < 0
  · refine ⟨_, by simp only [Loop.acceptRound, if_pos hj]; rfl, ?_⟩
    exact h.move run (by simp) (by simp)
  · have kept := h.kept run
    have lt : j.rc.toNat < fdSetSize := by omega
    refine ⟨_, by simp only [Loop.acceptRound, if_neg hj, fdSet, if_pos lt]; rfl, ?_⟩
    exact
      { kept := fun _ =>
          { listening := Finset.mem_insert_of_mem kept.listening
            greatest := insert_greatest kept.greatest j.rc.toNat
            clients := by
              intro fd hf hs
              rcases Finset.mem_insert.mp hf with rfl | hf
              · exact Finset.mem_insert_self _ _
              · exact Finset.mem_insert_of_mem (kept.clients fd hf hs) }
        covered := fun _ => Finset.insert_subset_insert _ (h.covered run)
        client := fun _ he => by simp [point] at he
        closed := fun he => absurd he run }

theorem Inv.recvRound {i : Nat} {r : Result} (h : Inv sock s) (point : s.point = .recv i) :
    ∃ t, s.recvRound i r = .ok t ∧ Inv sock t := by
  have run : s.point ≠ .returned := by simp [point]
  have ne := h.client i point
  simp only [Loop.recvRound]
  split
  · split
    · exact ⟨_, rfl, h.move run (by simp) (by simp)⟩
    · exact h.closeConn run ne
  · split
    · exact h.closeConn run ne
    · exact ⟨s, rfl, h⟩

theorem Inv.scan {i : Nat} (h : Inv sock s) (point : s.point = .scan i) (a : Answers) :
    ∃ t, step sock s a = .ok t ∧ Inv sock t := by
  have run : s.point ≠ .returned := by simp [point]
  simp only [step, point]
  split
  · split
    · refine ⟨_, rfl, h.move run (by split <;> simp) fun k hk => ?_⟩
      split at hk
      next => simp at hk
      next ne =>
        obtain rfl : i = k := by simpa using hk
        exact ne
    · exact ⟨_, rfl, h.move run (by simp) (by simp)⟩
  · split
    · exact ⟨_, rfl, h.closeAll run⟩
    · exact ⟨_, rfl, h.move run (by simp) (by simp)⟩

/-- Every step whose descriptors fit the set returns and keeps the books. -/
theorem Inv.step {a : Answers} (h : Inv sock s) (fits : Fits s a) :
    ∃ t, step sock s a = .ok t ∧ Inv sock t := by
  cases point : s.point with
  | select =>
    have run : s.point ≠ .returned := by simp [point]
    simp only [SelectLoop.step, point]
    split
    · exact ⟨_, rfl, h.closeAll run⟩
    · split
      · exact ⟨_, rfl, h.closeAll run⟩
      · exact ⟨_, rfl, h.move run (by simp) (by simp)⟩
  | scan i => exact h.scan point a
  | accept i =>
    simp only [SelectLoop.step, point]
    exact h.acceptRound point (fits i point)
  | recv i =>
    simp only [SelectLoop.step, point]
    exact h.recvRound point
  | returned => exact ⟨s, by simp [SelectLoop.step, point], h⟩

theorem fits_of_step {a : Answers} (h : SelectLoop.step sock s a = .ok t) : Fits s a := by
  intro i point
  by_contra large
  have h0 : ¬a.accept.rc < 0 := by omega
  have hl : ¬a.accept.rc.toNat < fdSetSize := by omega
  have he : s.acceptRound i a.accept = .error .beyondSet := by
    simp only [Loop.acceptRound, if_neg h0, fdSet, if_neg hl]
    rfl
  simp [SelectLoop.step, point, he] at h

def accepted (j : Nat) : Answers := ⟨⟨0, false⟩, ∅, ⟨j, false⟩, ⟨0, false⟩⟩

def ready (fd : Nat) : Answers := ⟨⟨1, false⟩, {fd}, ⟨0, false⟩, ⟨0, false⟩⟩

theorem fits_of_accepted {i : Nat} {js : List Nat} (point : s.point = .accept i)
    (h : Meets (SelectLoop.step sock) Fits s (js.map accepted)) : ∀ j ∈ js, j < fdSetSize := by
  induction js generalizing s with
  | nil => simp
  | cons j js ih =>
    obtain ⟨fits, rest⟩ := h
    have hj : j < fdSetSize := by
      have := fits i point
      simp only [accepted] at this
      omega
    intro k hk
    rcases List.mem_cons.mp hk with rfl | hk
    · exact hj
    · refine ih (s := { s with
        masterSet := insert j s.masterSet
        maxSd := if s.maxSd < j then j else s.maxSd
        opened := insert j s.opened }) point (rest _ ?_) k hk
      simp [SelectLoop.step, point, Loop.acceptRound, accepted, fdSet, hj]
      rfl

theorem fits_of_inOrder {answers : List Answers}
    (h : Upholds (SelectLoop.step sock) (InOrder sock) (start sock) answers) :
    Meets (SelectLoop.step sock) Fits (start sock) answers := by
  refine meets_of_upholds (I := Inv sock) (L := fun _ _ => True) ?_ ?_ start_inv ?_ h
  · exact fun s a hi _ fits => hi.step fits
  · exact fun s a t _ _ ht _ => fits_of_step ht
  · exact Meets.of_forall (fun _ _ => trivial) _ _

/-- Over a whole run: every call returns, the downward scans among them, and the books are in
order at the head of the loop, exactly when every descriptor that is accepted fits the set. -/
theorem inOrder_iff_fits (sock : Fin fdSetSize) (answers : List Answers) :
    Upholds (SelectLoop.step sock) (InOrder sock) (start sock) answers ↔
      Meets (SelectLoop.step sock) Fits (start sock) answers := by
  constructor
  · exact fits_of_inOrder
  · intro h
    refine upholds_of_meets (I := Inv sock) ?_ ?_ start_inv h
    · exact fun s hi point => hi.kept (by simp [point])
    · exact fun s a hi fits => hi.step fits

/-- Descriptors 0 to 3 are in use and the listening socket has 4: the first 1019 clients fill the
set, and the next one gets a descriptor that it has no room for. -/
theorem overfull_set :
    ¬Upholds (SelectLoop.step 4) (InOrder 4) (start 4)
      (List.replicate 6 (ready 4) ++ (List.range' 5 1020).map accepted) := by
  intro h
  have meets := fits_of_inOrder h
  have full := (((((meets.2 _ rfl).2 _ rfl).2 _ rfl).2 _ rfl).2 _ rfl).2 _ rfl
  have lt := fits_of_accepted rfl full 1024 (List.mem_range'_1.mpr (by omega))
  exact lt_irrefl _ lt

end SelectLoop

end TcpAndParallel
