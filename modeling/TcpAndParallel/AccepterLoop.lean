import TcpAndParallel.SelectLoop

namespace TcpAndParallel

namespace Accepter

open SelectLoop

structure Answers extends SelectLoop.Answers where
  queued : Int

/-- A round of the loop around `recv`, which ends when the queue takes no more. -/
def recvRound (i : Nat) (r : Result) (queued : Int) (s : Loop) : Except SelectLoop.Fault Loop :=
  if 0 < r.rc ∧ queued < 0 then .ok { s with point := .scan (i + 1) } else s.recvRound i r

/-- `accepter` from one of its points to the next; it takes the greatest descriptor for the
listening one. `select` leaves some of the descriptors it is given. -/
def step (s : Loop) (a : Answers) : Except SelectLoop.Fault Loop :=
  match s.point with
  | .select =>
    if a.select.rc < 0 then .ok s.closeAll
    else if a.select.rc = 0 then .ok s.closeAll
    else .ok { s with
      readFd := a.readFd ∩ s.masterSet
      descReady := a.select.rc
      point := .scan 0 }
  | .scan i =>
    if i ≤ s.maxSd ∧ 0 < s.descReady then
      if i ∈ s.readFd then
        .ok { s with
          descReady := s.descReady - 1
          point := if i = s.maxSd then .accept i else .recv i }
      else .ok { s with point := .scan (i + 1) }
    else if s.endServer then .ok s.closeAll
    else .ok { s with point := .select }
  | .accept i => s.acceptRound i a.accept
  | .recv i => recvRound i a.recv a.queued s
  | .returned => .ok s

/-- `accept` is called on `max_sd`, and `recv` and `close` on the descriptor of the round. -/
def Unconfused (sock : Nat) (s : Loop) : Prop :=
  match s.point with
  | .accept _ => s.maxSd = sock
  | .recv i => i ∈ s.opened
  | _ => True

/-- A descriptor that `accept` returns is not above the listening one. -/
def Below (sock : Nat) (s : Loop) (a : Answers) : Prop :=
  ∀ i, s.point = .accept i → a.accept.rc ≤ sock

def Open (sock i : Nat) (s : Loop) : Prop :=
  ∀ fd ∈ s.readFd, i ≤ fd → fd ≠ sock → fd ∈ s.opened

def Expects (sock : Nat) (s : Loop) : Point → Prop
  | .scan i => Open sock i s
  | .accept i => Open sock (i + 1) s
  | .recv i => i ∈ s.opened ∧ i ≠ sock ∧ Open sock (i + 1) s
  | _ => True

structure Inv (sock : Nat) (s : Loop) : Prop where
  greatest : s.maxSd = sock
  clients : s.point ≠ .returned → ∀ fd ∈ s.masterSet, fd ≠ sock → fd ∈ s.opened
  expects : Expects sock s s.point

variable {sock i : Nat} {s t : Loop} {a : Answers}

theorem Inv.unconfused (h : Inv sock s) : Unconfused sock s := by
  unfold Unconfused
  split
  next => exact h.greatest
  next point =>
    have hrecv := h.expects
    rw [point] at hrecv
    exact hrecv.1
  next => trivial

theorem start_inv : Inv sock (start sock) where
  greatest := rfl
  clients _ := by simp [start]
  expects := trivial

theorem Inv.move (h : Inv sock s) (run : s.point ≠ .returned) {readFd : Finset Nat}
    {descReady : Int} {endServer : Bool} {point : Point}
    (expects : Expects sock { s with readFd, descReady, endServer, point } point) :
    Inv sock { s with readFd, descReady, endServer, point } where
  greatest := h.greatest
  clients _ := h.clients run
  expects := expects

theorem Inv.closeAll (h : Inv sock s) : Inv sock s.closeAll where
  greatest := h.greatest
  clients run := absurd rfl run
  expects := trivial

theorem Inv.scan (h : Inv sock s) (point : s.point = .scan i) :
    ∃ t, step s a = .ok t ∧ Inv sock t := by
  have run : s.point ≠ .returned := by simp [point]
  have hopen : Open sock i s := by
    have hscan := h.expects
    rwa [point] at hscan
  have hnext : Open sock (i + 1) s := fun fd hf hle => hopen fd hf (by omega)
  simp only [step, point]
  split
  · split
    next hmem =>
      refine ⟨_, rfl, h.move run ?_⟩
      rw [h.greatest]
      by_cases hi : i = sock
      · rw [if_pos hi]
        exact hnext
      · rw [if_neg hi]
        exact ⟨hopen i hmem le_rfl hi, hi, hnext⟩
    next => exact ⟨_, rfl, h.move run hnext⟩
  · split
    · exact ⟨_, rfl, h.closeAll⟩
    · exact ⟨_, rfl, h.move run trivial⟩

theorem Inv.acceptRound {j : Result} (h : Inv sock s) (point : s.point = .accept i)
    (fits : sock < fdSetSize) (below : j.rc ≤ sock) :
    ∃ t, s.acceptRound i j = .ok t ∧ Inv sock t := by
  have run : s.point ≠ .returned := by simp [point]
  have hopen : Open sock (i + 1) s := by
    have haccept := h.expects
    rwa [point] at haccept
  by_cases hj : j.rc < 0
  · refine ⟨_, by simp only [Loop.acceptRound, if_pos hj]; rfl, ?_⟩
    exact h.move run hopen
  · have lt : j.rc.toNat < fdSetSize := by omega
    have hmax : ¬s.maxSd < j.rc.toNat := by
      have := h.greatest
      omega
    refine ⟨_, by simp only [Loop.acceptRound, if_neg hj, fdSet, if_pos lt, if_neg hmax]; rfl, ?_⟩
    exact
      { greatest := h.greatest
        clients := by
          intro _ fd hf hne
          rcases Finset.mem_insert.mp hf with rfl | hf
          · exact Finset.mem_insert_self _ _
          · exact Finset.mem_insert_of_mem (h.clients run fd hf hne)
        expects := by
          show Expects sock _ s.point
          rw [point]
          intro fd hf hle hne
          exact Finset.mem_insert_of_mem (hopen fd hf hle hne) }

theorem Inv.closeConn (h : Inv sock s) (point : s.point = .recv i) :
    ∃ t, s.closeConn i = .ok t ∧ Inv sock t := by
  have run : s.point ≠ .returned := by simp [point]
  obtain ⟨-, hne, hopen⟩ : Expects sock s (.recv i) := point ▸ h.expects
  have hmax : i ≠ s.maxSd := fun he => hne (he.trans h.greatest)
  refine ⟨_, by simp only [Loop.closeConn, if_neg hmax]; rfl, ?_⟩
  exact
    { greatest := h.greatest
      clients := by
        intro _ fd hf hs
        obtain ⟨hi, hf⟩ := Finset.mem_erase.mp hf
        exact Finset.mem_erase.mpr ⟨hi, h.clients run fd hf hs⟩
      expects := by
        intro fd hf hle hs
        exact Finset.mem_erase.mpr ⟨by omega, hopen fd hf hle hs⟩ }

theorem Inv.recvRound {r : Result} {queued : Int} (h : Inv sock s) (point : s.point = .recv i) :
    ∃ t, recvRound i r queued s = .ok t ∧ Inv sock t := by
  have run : s.point ≠ .returned := by simp [point]
  obtain ⟨-, -, hopen⟩ : Expects sock s (.recv i) := point ▸ h.expects
  unfold Accepter.recvRound
  split
  · exact ⟨_, rfl, h.move run hopen⟩
  · unfold Loop.recvRound
    split
    · split
      · exact ⟨_, rfl, h.move run hopen⟩
      · exact h.closeConn point
    · split
      · exact h.closeConn point
      · exact ⟨s, rfl, h⟩

/-- Every step that accepts below the listening descriptor returns and keeps the invariant. -/
theorem Inv.step (h : Inv sock s) (fits : sock < fdSetSize) (below : Below sock s a) :
    ∃ t, step s a = .ok t ∧ Inv sock t := by
  cases point : s.point with
  | select =>
    have run : s.point ≠ .returned := by simp [point]
    simp only [Accepter.step, point]
    split
    · exact ⟨_, rfl, h.closeAll⟩
    · split
      · exact ⟨_, rfl, h.closeAll⟩
      · refine ⟨_, rfl, h.move run ?_⟩
        intro fd hf _ hne
        exact h.clients run fd (Finset.mem_inter.mp hf).2 hne
  | scan i => exact h.scan point
  | accept i =>
    simp only [Accepter.step, point]
    exact h.acceptRound point fits (below i point)
  | recv i =>
    simp only [Accepter.step, point]
    exact h.recvRound point
  | returned => exact ⟨s, by simp [Accepter.step, point], h⟩

theorem below_of_unconfused (h : Inv sock s) (ht : Accepter.step s a = .ok t)
    (unconfused : Unconfused sock t) : Below sock s a := by
  intro i point
  by_contra above
  have h0 : ¬a.accept.rc < 0 := by omega
  have hmax : s.maxSd < a.accept.rc.toNat := by
    have := h.greatest
    omega
  simp only [Accepter.step, point, Loop.acceptRound, if_neg h0, fdSet, if_pos hmax] at ht
  split at ht
  next =>
    obtain rfl := Except.ok.inj ht
    have hsock : a.accept.rc.toNat = sock := by
      simpa only [Unconfused, point] using unconfused
    omega
  next => exact absurd ht (by simp [bind, Except.bind])

theorem below_of_upholds (fits : sock < fdSetSize) {answers : List Answers}
    (h : Upholds Accepter.step (Unconfused sock) (start sock) answers) :
    Meets Accepter.step (Below sock) (start sock) answers := by
  refine meets_of_upholds (I := Inv sock) (L := fun _ _ => True) ?_ ?_ start_inv ?_ h
  · exact fun s a hi _ below => hi.step fits below
  · exact fun s a t hi _ ht unconfused => below_of_unconfused hi ht unconfused
  · exact Meets.of_forall (fun _ _ => trivial) _ _

/-- Over a whole run: listener and connections are kept apart exactly where every descriptor that is
accepted is below the listening one. -/
theorem unconfused_iff_below (sock : Fin fdSetSize) (answers : List Answers) :
    Upholds step (Unconfused sock) (start sock) answers ↔
      Meets step (Below sock) (start sock) answers := by
  constructor
  · exact below_of_upholds sock.isLt
  · intro h
    refine upholds_of_meets (I := Inv sock) ?_ ?_ start_inv h
    · exact fun s hi => hi.unconfused
    · exact fun s a hi below => hi.step sock.isLt below

/-- The listening socket is 3, and the first client gets 4. -/
def firstClient : List Answers := List.replicate 5 ⟨ready 3, 0⟩ ++ [⟨accepted 4, 0⟩]

/-- The next `accept` is called on the client. -/
theorem client_listened_to : ¬Upholds step (Unconfused 3) (start 3) firstClient := by
  intro h
  have meets := below_of_upholds (by decide) h
  have below := (((((meets.2 _ rfl).2 _ rfl).2 _ rfl).2 _ rfl).2 _ rfl).1 3 rfl
  exact absurd below (by decide)

end Accepter

end TcpAndParallel
