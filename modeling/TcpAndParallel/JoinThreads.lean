import Mathlib.Data.Fintype.Card
import Mathlib.Data.Fintype.Option
import TcpAndParallel.Monitors
import TcpAndParallel.WorkQueue

namespace TcpAndParallel

namespace JoinThreads

/-- The points of the main thread in `create_threads` and `join_threads`. -/
inductive MainPc
  | create | enter | test | lock | check | wait | wake | get | unlock | join | log | free | done
  deriving DecidableEq

/-- The points of a worker in `stop_thread`, to which every worker comes. -/
inductive WorkerPc
  | created | lock | put | unlock | signal | log | leave | done
  deriving DecidableEq

inductive Pc
  | main (p : MainPc)
  | worker (p : WorkerPc)
  deriving DecidableEq

/-- The cleanup queue and the counter. A worker and its node are known by the order of creation.
`curnode` and `numThreads` are the locals of `join_threads`; `removed` and `joined` are the nodes
taken off the queue and the threads joined, the latest first. -/
structure Crew (N : Nat) where
  numthreads : Int
  numThreads : Int
  cleanup : Queue (Fin N)
  next : Fin N → Option (Fin N)
  threadnum : Fin N → Int
  created : Nat
  exited : Fin N → Bool
  freed : Fin N → Bool
  curnode : Option (Fin N)
  removed : List (Fin N)
  joined : List (Fin N)

def initializeStructs (N : Nat) : Crew N where
  numthreads := 0
  numThreads := 0
  cleanup := queueInit
  next _ := none
  threadnum _ := 0
  created := 0
  exited _ := false
  freed _ := false
  curnode := none
  removed := []
  joined := []

variable {N : Nat}

/-- The thread `none` is the main thread. -/
abbrev Op (N : Nat) := Instr (Option (Fin N)) Unit Unit (Crew N) Pc Unit

/-- A step of a worker on its own node. -/
def onNode (f : Fin N → Crew N → Option (Crew N)) (next : WorkerPc) : Op N :=
  .act fun t _ d => t.bind fun i => (f i d).map fun d => (d, .worker next)

/-- `stop_thread`. A worker is there once it has been created. -/
@[simp] def stopThread : WorkerPc → Op N
  | .created => onNode (fun i d => if i.val < d.created then some d else none) .lock
  | .lock => .lock () (.worker .put)
  | .put => onNode (fun i d => some { d with
      next := (queuePut d.next d.cleanup i).1
      cleanup := (queuePut d.next d.cleanup i).2 }) .unlock
  | .unlock => .unlock () (.worker .signal)
  | .signal => .signal () (.worker .log)
  | .log => onNode (fun _ d => some d) .leave
  | .leave => onNode (fun i d => some { d with exited := Function.update d.exited i true }) .done
  | .done => .halt

def createThread (d : Crew N) : Crew N × Pc :=
  if h : d.created < N then
    ({ d with
      threadnum := Function.update d.threadnum ⟨d.created, h⟩ d.numthreads
      created := d.created + 1
      numthreads := d.numthreads + 1 }, .main .create)
  else (d, .main .enter)

/-- `pthread_join`, which waits for the thread and stores its null result over the first word of
the node. -/
def join (d : Crew N) : Option (Crew N × Pc) :=
  match d.curnode with
  | none => none
  | some c =>
    if d.exited c then
      some ({ d with joined := c :: d.joined, next := Function.update d.next c none }, .main .log)
    else none

@[simp] def joinThreads : MainPc → Op N
  | .create => .act fun _ _ d => some (createThread d)
  | .enter => .act fun _ _ d => some ({ d with
      numThreads := d.numthreads
      numthreads := d.numthreads - 1 }, .main .test)
  | .test => .act fun _ _ d => some (d, .main (if d.numthreads + 2 ≠ 0 then .lock else .done))
  | .lock => .lock () (.main .check)
  | .check => .act fun _ _ d => some (d, .main (if d.cleanup.head = none then .wait else .get))
  | .wait => .wait () () (.main .wake)
  | .wake => .lock () (.main .check)
  | .get => .act fun _ _ d => some ({ d with
      curnode := (queueGet d.next d.cleanup).1
      cleanup := (queueGet d.next d.cleanup).2
      removed := (queueGet d.next d.cleanup).1.toList ++ d.removed }, .main .unlock)
  | .unlock => .unlock () (.main .join)
  | .join => .act fun _ _ d => join d
  | .log => .act fun _ _ d => d.curnode.map fun _ => (d, .main .free)
  | .free => .act fun _ _ d => d.curnode.map fun c => ({ d with
      freed := Function.update d.freed c true
      numthreads := d.numthreads - 1 }, .main .test)
  | .done => .halt

@[simp] def code : Pc → Op N
  | .main p => joinThreads p
  | .worker p => stopThread p

abbrev State (N : Nat) := Machine (Option (Fin N)) Unit Unit (Crew N) Pc

def entry : Option (Fin N) → Pc
  | none => .main .create
  | some _ => .worker .created

def init (N : Nat) : State N := .start entry (initializeStructs N)

/-- The states of the runs, from any state. -/
abbrev Leads (s t : State N) : Prop := Reaches (Machine.step code) (fun _ _ => True) s t

def Returned (s : State N) : Prop := s.pc none = .main .done

/-- In every order of the exits each worker is joined once and its node removed, the main thread
does not sleep on the empty queue after the last of them, and it can always still return. -/
structure JoinsAll (N : Nat) : Prop where
  once : ∀ s, Leads (init N) s → s.data.joined.Nodup
  all : ∀ s, Leads (init N) s → Returned s → s.data.removed.length = N ∧ ∀ i, i ∈ s.data.joined
  awake : ∀ s, Leads (init N) s → (∀ i, i ∈ s.data.joined) → s.data.cleanup.head = none →
    none ∉ s.waiters ()
  returns : ∀ s, Leads (init N) s → ∃ t, Leads s t ∧ Returned t

/-- What the counter says of the nodes at each point of the main thread. -/
def Books : MainPc → Crew N → Prop
  | .create, d => d.numthreads = d.created ∧ d.created ≤ N ∧ d.removed = [] ∧ d.joined = []
  | .enter, d => d.numthreads = N ∧ d.removed = [] ∧ d.joined = []
  | .test, d | .lock, d | .check, d | .wait, d | .wake, d =>
    d.numthreads + d.removed.length + 1 = N ∧ d.joined = d.removed
  | .get, d => d.numthreads + d.removed.length + 1 = N ∧ d.joined = d.removed ∧
    d.cleanup.head ≠ none
  | .unlock, d | .join, d => d.numthreads + d.removed.length = N ∧
    ∃ c, d.curnode = some c ∧ d.removed = c :: d.joined
  | .log, d | .free, d => d.numthreads + d.removed.length = N ∧ d.joined = d.removed
  | .done, _ => False

def HasPut (p : Pc) : Prop :=
  p ≠ .worker .created ∧ p ≠ .worker .lock ∧ p ≠ .worker .put

/-- No node is on the queue or removed twice, nor before its worker has put it there. -/
def Queued (d : Crew N) (pc : Fin N → Pc) : Prop :=
  ∃ xs, d.cleanup.Holds d.next xs ∧ (xs ++ d.removed).Nodup ∧
    ∀ i ∈ xs ++ d.removed, HasPut (pc i)

structure Inv (s : State N) : Prop where
  main : ∃ p, s.pc none = .main p ∧ Books p s.data
  workers : ∀ i, ∃ p, s.pc (some i) = .worker p
  queued : Queued s.data fun i => s.pc (some i)

theorem init_inv (N : Nat) : Inv (init N) where
  main := ⟨.create, rfl, rfl, Nat.zero_le N, rfl, rfl⟩
  workers _ := ⟨.created, rfl⟩
  queued := ⟨[], queueInit_holds _, by simp [init, Machine.start, initializeStructs]⟩

theorem Queued.length_le {d : Crew N} {pc : Fin N → Pc} (h : Queued d pc) :
    d.removed.length ≤ N := by
  obtain ⟨xs, -, nodup, -⟩ := h
  have := (List.nodup_append.mp nodup).2.1.length_le_card
  rwa [Fintype.card_fin] at this

theorem Queued.join {d : Crew N} {pc : Fin N → Pc} {c : Fin N} (h : Queued d pc)
    (hc : c ∈ d.removed) (joined : List (Fin N)) :
    Queued { d with joined, next := Function.update d.next c none } pc := by
  obtain ⟨xs, holds, nodup, put⟩ := h
  have notMem : c ∉ xs := fun hx => (List.nodup_append.mp nodup).2.2 c hx c hc rfl
  exact ⟨xs, holds.update_of_notMem notMem, nodup, put⟩

theorem Queued.get {d : Crew N} {pc : Fin N → Pc} (h : Queued d pc) (head : d.cleanup.head ≠ none) :
    ∃ c, (queueGet d.next d.cleanup).1 = some c ∧
      Queued { d with
        curnode := some c
        cleanup := (queueGet d.next d.cleanup).2
        removed := c :: d.removed } pc := by
  obtain ⟨xs, holds, nodup, put⟩ := h
  cases xs with
  | nil => exact absurd holds.head_eq head
  | cons c xs =>
    obtain ⟨got, rest⟩ := queueGet_holds holds
    have perm : (xs ++ c :: d.removed).Perm (c :: xs ++ d.removed) := List.perm_middle
    refine ⟨c, got, xs, rest, perm.nodup_iff.mpr nodup, ?_⟩
    intro i hi
    exact put i (perm.mem_iff.mp hi)

theorem Queued.put {d : Crew N} {pc : Fin N → Pc} {i : Fin N} (h : Queued d pc)
    (before : ¬HasPut (pc i)) {p : Pc} (after : HasPut p) :
    Queued { d with
      next := (queuePut d.next d.cleanup i).1
      cleanup := (queuePut d.next d.cleanup i).2 } (Function.update pc i p) := by
  obtain ⟨xs, holds, nodup, put⟩ := h
  have notMem : i ∉ xs ++ d.removed := fun hi => before (put i hi)
  refine ⟨i :: xs, queuePut_holds holds fun hx => notMem (List.mem_append_left _ hx),
    List.nodup_cons.mpr ⟨notMem, nodup⟩, ?_⟩
  intro j hj
  by_cases he : j = i
  · rw [he, Function.update_self]
    exact after
  · rw [Function.update_of_ne he]
    exact put j ((List.mem_cons.mp hj).resolve_left he)

theorem Queued.move {d : Crew N} {pc : Fin N → Pc} {i : Fin N} (h : Queued d pc) {p : Pc}
    (after : HasPut (pc i) → HasPut p) : Queued d (Function.update pc i p) := by
  obtain ⟨xs, holds, nodup, put⟩ := h
  refine ⟨xs, holds, nodup, ?_⟩
  intro j hj
  by_cases he : j = i
  · subst he
    rw [Function.update_self]
    exact after (put j hj)
  · rw [Function.update_of_ne he]
    exact put j hj

theorem Books.next {p : MainPc} {next : Pc} {d : Crew N} (h : Books p d)
    (hn : (joinThreads (N := N) p).next? = some next) : ∃ q, next = .main q ∧ Books q d := by
  cases p <;> simp [Instr.next?] at hn <;> exact ⟨_, hn.symm, h⟩

theorem books_create {d d' : Crew N} {next : Pc} {pc : Fin N → Pc} (h : Books .create d)
    (hq : Queued d pc) (he : createThread d = (d', next)) :
    ∃ q, next = .main q ∧ Books q d' ∧ Queued d' pc := by
  obtain ⟨count, le, removed, joined⟩ := h
  simp only [createThread] at he
  split at he
  next hlt =>
    obtain ⟨rfl, rfl⟩ := Prod.mk.inj he
    exact ⟨.create, rfl, ⟨by simp [count], hlt, removed, joined⟩, hq⟩
  next hlt =>
    obtain ⟨rfl, rfl⟩ := Prod.mk.inj he
    exact ⟨.enter, rfl, ⟨by omega, removed, joined⟩, hq⟩

theorem books_join {d d' : Crew N} {next : Pc} {pc : Fin N → Pc} (h : Books .join d)
    (hq : Queued d pc) (he : join d = some (d', next)) :
    ∃ q, next = .main q ∧ Books q d' ∧ Queued d' pc := by
  obtain ⟨count, c, hc, removed⟩ := h
  simp only [join, hc] at he
  split at he
  next =>
    obtain ⟨rfl, rfl⟩ := Prod.mk.inj (Option.some.inj he)
    exact ⟨.log, rfl, ⟨count, removed.symm⟩, hq.join (by simp [removed]) (c :: d.joined)⟩
  next => simp at he

/-- At the test the counter is not yet `-2`: that takes one node more than there are workers. -/
theorem books_test {d : Crew N} {pc : Fin N → Pc} (h : Books .test d) (hq : Queued d pc) :
    Books (if d.numthreads + 2 ≠ 0 then .lock else .done) d := by
  have bound := hq.length_le
  obtain ⟨count, joined⟩ := h
  rw [if_pos (by omega)]
  exact ⟨count, joined⟩

theorem books_check {d : Crew N} (h : Books .check d) :
    Books (if d.cleanup.head = none then .wait else .get) d := by
  split
  next => exact h
  next head => exact ⟨h.1, h.2, head⟩

theorem books_get {d : Crew N} {pc : Fin N → Pc} (h : Books .get d) (hq : Queued d pc) :
    Books .unlock { d with
        curnode := (queueGet d.next d.cleanup).1
        cleanup := (queueGet d.next d.cleanup).2
        removed := (queueGet d.next d.cleanup).1.toList ++ d.removed } ∧
      Queued { d with
        curnode := (queueGet d.next d.cleanup).1
        cleanup := (queueGet d.next d.cleanup).2
        removed := (queueGet d.next d.cleanup).1.toList ++ d.removed } pc := by
  obtain ⟨count, joined, head⟩ := h
  obtain ⟨c, got, queued⟩ := hq.get head
  rw [got]
  refine ⟨⟨?_, c, rfl, by simp [joined]⟩, queued⟩
  simp only [Option.toList_some, List.singleton_append, List.length_cons]
  omega

theorem books_act {p : MainPc} {f : Option (Fin N) → Unit → Crew N → Option (Crew N × Pc)}
    {d d' : Crew N} {next : Pc} {pc : Fin N → Pc} (h : Books p d) (hq : Queued d pc)
    (hf : joinThreads p = .act f) (he : f none () d = some (d', next)) :
    ∃ q, next = .main q ∧ Books q d' ∧ Queued d' pc := by
  cases p with
  | create =>
    obtain rfl := Instr.act.inj hf
    exact books_create h hq (Option.some.inj he)
  | enter =>
    obtain rfl := Instr.act.inj hf
    obtain ⟨rfl, rfl⟩ := Prod.mk.inj (Option.some.inj he)
    obtain ⟨count, removed, joined⟩ := h
    exact ⟨.test, rfl, ⟨by simp [count, removed], by simp [removed, joined]⟩, hq⟩
  | test =>
    obtain rfl := Instr.act.inj hf
    obtain ⟨rfl, rfl⟩ := Prod.mk.inj (Option.some.inj he)
    exact ⟨_, rfl, books_test h hq, hq⟩
  | check =>
    obtain rfl := Instr.act.inj hf
    obtain ⟨rfl, rfl⟩ := Prod.mk.inj (Option.some.inj he)
    exact ⟨_, rfl, books_check h, hq⟩
  | get =>
    obtain rfl := Instr.act.inj hf
    obtain ⟨rfl, rfl⟩ := Prod.mk.inj (Option.some.inj he)
    obtain ⟨books, queued⟩ := books_get h hq
    exact ⟨.unlock, rfl, books, queued⟩
  | join =>
    obtain rfl := Instr.act.inj hf
    exact books_join h hq he
  | log =>
    obtain rfl := Instr.act.inj hf
    obtain ⟨c, -, hd⟩ := Option.map_eq_some_iff.mp he
    obtain ⟨rfl, rfl⟩ := Prod.mk.inj hd
    exact ⟨.free, rfl, h, hq⟩
  | free =>
    obtain rfl := Instr.act.inj hf
    obtain ⟨c, -, hd⟩ := Option.map_eq_some_iff.mp he
    obtain ⟨rfl, rfl⟩ := Prod.mk.inj hd
    obtain ⟨count, joined⟩ := h
    refine ⟨.test, rfl, ⟨?_, joined⟩, hq⟩
    show d.numthreads - 1 + d.removed.length + 1 = N
    omega
  | lock | wait | wake | unlock | done => simp at hf

theorem books_of_worker {p : MainPc} {d d' : Crew N} (h : Books p d)
    (counter : d'.numthreads = d.numthreads ∧ d'.created = d.created)
    (nodes : d'.curnode = d.curnode ∧ d'.removed = d.removed ∧ d'.joined = d.joined)
    (head : d.cleanup.head ≠ none → d'.cleanup.head ≠ none) : Books p d' := by
  obtain ⟨numthreads, created⟩ := counter
  obtain ⟨curnode, removed, joined⟩ := nodes
  cases p <;> simp only [Books, numthreads, created, curnode, removed, joined] at h ⊢ <;>
    first | exact h | exact ⟨h.1, h.2.1, head h.2.2⟩

theorem onNode_act {f : Fin N → Crew N → Option (Crew N)} {i : Fin N} {q : WorkerPc}
    {d d' : Crew N} {next : Pc} {g : Option (Fin N) → Unit → Crew N → Option (Crew N × Pc)}
    (hf : onNode f q = .act g) (he : g (some i) () d = some (d', next)) :
    f i d = some d' ∧ next = .worker q := by
  obtain rfl := Instr.act.inj hf
  obtain ⟨d₁, hd, hp⟩ := Option.map_eq_some_iff.mp he
  obtain ⟨rfl, rfl⟩ := Prod.mk.inj hp
  exact ⟨hd, rfl⟩

theorem worker_act {p : WorkerPc} {q : MainPc} {i : Fin N} {d d' : Crew N} {next : Pc}
    {pc : Fin N → Pc} {g : Option (Fin N) → Unit → Crew N → Option (Crew N × Pc)}
    (books : Books q d) (hq : Queued d pc) (hp : pc i = .worker p) (hf : stopThread p = .act g)
    (he : g (some i) () d = some (d', next)) :
    (∃ r, next = .worker r) ∧ Books q d' ∧ Queued d' (Function.update pc i next) := by
  cases p with
  | created =>
    obtain ⟨hd, rfl⟩ := onNode_act hf he
    split at hd
    next =>
      obtain rfl := Option.some.inj hd
      exact ⟨⟨_, rfl⟩, books, hq.move fun h => absurd hp h.1⟩
    next => simp at hd
  | put =>
    obtain ⟨hd, rfl⟩ := onNode_act hf he
    obtain rfl := Option.some.inj hd
    refine ⟨⟨_, rfl⟩, books_of_worker books ⟨rfl, rfl⟩ ⟨rfl, rfl, rfl⟩ fun _ => ?_, ?_⟩
    · simp [queuePut]
    · exact hq.put (fun h => h.2.2 hp) (by simp [HasPut])
  | log =>
    obtain ⟨hd, rfl⟩ := onNode_act hf he
    obtain rfl := Option.some.inj hd
    exact ⟨⟨_, rfl⟩, books, hq.move fun _ => by simp [HasPut]⟩
  | leave =>
    obtain ⟨hd, rfl⟩ := onNode_act hf he
    obtain rfl := Option.some.inj hd
    refine ⟨⟨_, rfl⟩, books_of_worker books ⟨rfl, rfl⟩ ⟨rfl, rfl, rfl⟩ id, ?_⟩
    exact Queued.move (d := { d with exited := Function.update d.exited i true }) hq
      fun _ => by simp [HasPut]
  | lock | unlock | signal | done => simp at hf

theorem worker_next {p : WorkerPc} {i : Fin N} {d : Crew N} {next : Pc} {pc : Fin N → Pc}
    (hq : Queued d pc) (hp : pc i = .worker p) (hn : (stopThread (N := N) p).next? = some next) :
    (∃ r, next = .worker r) ∧ Queued d (Function.update pc i next) := by
  cases p with
  | lock =>
    obtain rfl := Option.some.inj hn
    exact ⟨⟨_, rfl⟩, hq.move fun h => absurd hp h.2.1⟩
  | unlock | signal =>
    obtain rfl := Option.some.inj hn
    exact ⟨⟨_, rfl⟩, hq.move fun _ => by simp [HasPut]⟩
  | created | put | log | leave | done => simp [onNode, Instr.next?] at hn

theorem Inv.main_step {s s' : State N} (h : Inv s) {choice : Unit} {woken : Finset (Option (Fin N))}
    (hs : s.step code (.run none choice woken) = some s') : Inv s' := by
  obtain ⟨-, next, hpc, hdo⟩ := step_run hs
  obtain ⟨p, hp, books⟩ := h.main
  have moved : s'.pc none = next := by rw [hpc, Function.update_self]
  have rest : ∀ i : Fin N, s'.pc (some i) = s.pc (some i) := fun i => pc_of_ne hs (by simp)
  have queued : Queued s.data fun i => s'.pc (some i) := by
    simp only [rest]
    exact h.queued
  rw [hp] at hdo
  rcases hdo with ⟨hn, hd⟩ | ⟨f, hf, he, -⟩
  · obtain ⟨q, rfl, books⟩ := books.next hn
    exact ⟨⟨q, moved, hd ▸ books⟩, fun i => rest i ▸ h.workers i, hd ▸ queued⟩
  · obtain ⟨q, rfl, books, queued⟩ := books_act books queued hf he
    exact ⟨⟨q, moved, books⟩, fun i => rest i ▸ h.workers i, queued⟩

theorem Inv.worker_step {s s' : State N} (h : Inv s) {i : Fin N} {choice : Unit}
    {woken : Finset (Option (Fin N))} (hs : s.step code (.run (some i) choice woken) = some s') :
    Inv s' := by
  obtain ⟨-, next, hpc, hdo⟩ := step_run hs
  obtain ⟨q, hq, books⟩ := h.main
  obtain ⟨p, hp⟩ := h.workers i
  have main : s'.pc none = .main q := (pc_of_ne hs (by simp)).trans hq
  have moved : (fun j => s'.pc (some j)) = Function.update (fun j => s.pc (some j)) i next := by
    funext j
    rw [hpc]
    by_cases hj : j = i
    · rw [hj, Function.update_self, Function.update_self]
    · rw [Function.update_of_ne hj, Function.update_of_ne (by simpa using hj)]
  have workers : (∃ r, next = .worker r) → ∀ j, ∃ r, s'.pc (some j) = .worker r := by
    rintro ⟨r, rfl⟩ j
    have := congrFun moved j
    by_cases hj : j = i
    · exact ⟨r, by rw [this, hj, Function.update_self]⟩
    · obtain ⟨r', hr⟩ := h.workers j
      exact ⟨r', by rw [this, Function.update_of_ne hj, hr]⟩
  rw [hp] at hdo
  rcases hdo with ⟨hn, hd⟩ | ⟨f, hf, he, -⟩
  · obtain ⟨kind, queued⟩ := worker_next h.queued hp hn
    exact ⟨⟨q, main, hd ▸ books⟩, workers kind, by rw [hd, moved]; exact queued⟩
  · obtain ⟨kind, books, queued⟩ := worker_act books h.queued hp hf he
    exact ⟨⟨q, main, books⟩, workers kind, by rw [moved]; exact queued⟩

theorem Inv.step {s s' : State N} {e : Event (Option (Fin N)) Unit Unit} (h : Inv s)
    (hs : s.step code e = some s') : Inv s' := by
  cases e with
  | spurious c t =>
    obtain ⟨-, rfl⟩ := step_spurious hs
    exact ⟨h.main, h.workers, h.queued⟩
  | run t choice woken =>
    cases t with
    | none => exact h.main_step hs
    | some i => exact h.worker_step hs

theorem Inv.leads {s t : State N} (h : Inv s) (ht : Leads s t) : Inv t :=
  ht.invariant h fun _ _ _ hi _ he => hi.step he

theorem Inv.not_returned {s : State N} (h : Inv s) : ¬Returned s := by
  intro done
  obtain ⟨p, hp, books⟩ := h.main
  obtain rfl : p = .done := Pc.main.inj (hp.symm.trans done)
  exact books

theorem Books.joined_sublist {p : MainPc} {d : Crew N} (h : Books p d) :
    d.joined.Sublist d.removed := by
  cases p with
  | create => simp [h.2.2.2]
  | enter => simp [h.2.2]
  | test | lock | check | wait | wake | log | free => rw [h.2]
  | get => rw [h.2.1]
  | unlock | join =>
    obtain ⟨-, c, -, removed⟩ := h
    rw [removed]
    exact List.sublist_cons_self c d.joined
  | done => exact absurd h id

/-- Once every worker has been joined the queue is empty for good. -/
theorem Inv.head_of_joined {s : State N} (h : Inv s) (all : ∀ i, i ∈ s.data.joined) :
    s.data.cleanup.head = none := by
  obtain ⟨p, -, books⟩ := h.main
  obtain ⟨xs, holds, nodup, -⟩ := h.queued
  cases xs with
  | nil => exact holds
  | cons x xs =>
    have removed := books.joined_sublist.subset (all x)
    exact absurd rfl ((List.nodup_append.mp nodup).2.2 x (by simp) x removed)

/-- In no run does `join_threads` return, though each worker is joined once at most: its loop has
one round more than there are workers, and in this round the queue stays empty. -/
theorem never_joinsAll (N : Nat) : ¬JoinsAll N ∧ ∀ s, Leads (init N) s →
    ¬Returned s ∧ s.data.joined.Nodup ∧ s.data.removed.length ≤ N ∧
      ((∀ i, i ∈ s.data.joined) → s.data.cleanup.head = none) := by
  have inv : ∀ s, Leads (init N) s → Inv s := fun s hs => (init_inv N).leads hs
  refine ⟨?_, fun s hs => ⟨(inv s hs).not_returned, ?_, (inv s hs).queued.length_le,
    (inv s hs).head_of_joined⟩⟩
  · intro h
    obtain ⟨t, ht, returned⟩ := h.returns _ .start
    exact (inv t ht).not_returned returned
  · obtain ⟨p, -, books⟩ := (inv s hs).main
    obtain ⟨xs, -, nodup, -⟩ := (inv s hs).queued
    exact books.joined_sublist.nodup (List.nodup_append.mp nodup).2.1

def go (t : Option (Fin 1)) : Event (Option (Fin 1)) Unit Unit := .run t () ∅

/-- The one worker has been joined, and the main thread sleeps on the empty queue. -/
theorem sleeps_after_last_join : ¬JoinsAll 1 := by
  have run : ∃ s, Leads (init 1) s ∧
      ((∀ i, i ∈ s.data.joined) ∧ s.data.cleanup.head = none ∧ none ∈ s.waiters ()) :=
    exists_reaches (List.replicate 3 (go none) ++ List.replicate 7 (go (some 0)) ++
      List.replicate 12 (go none)) (by decide)
  obtain ⟨s, hs, joined, head, sleeps⟩ := run
  exact fun h => h.awake s hs joined head sleeps

end JoinThreads

end TcpAndParallel
