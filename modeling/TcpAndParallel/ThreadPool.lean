import Mathlib.Data.List.Nodup
import TcpAndParallel.Monitors

namespace TcpAndParallel

namespace ThreadPool

inductive Cond
  | busycv
  | workcv
  | waitcv
  deriving DecidableEq

instance : Fintype Cond := ⟨{.busycv, .workcv, .waitcv}, by rintro (_ | _ | _) <;> simp⟩

/-- The points of `worker_thread`, with those of `job_cleanup` from `jobLock` to `jobNotify` and of
`worker_cleanup` from `cleanup` on. At `create` the thread has not been created yet; `exits` says
that the job has called `pthread_exit`, as a cancelled one does. -/
inductive WorkerPc
  | create | lock | loop | notify | test | wait | wake | timedwait | timedwake | timeout | leave
  | unlock | run
  | jobLock (exits : Bool)
  | jobCleanup (exits : Bool)
  | jobNotify (exits : Bool)
  | again | cleanup | broadcast | cleanupUnlock | exit
  deriving DecidableEq

/-- The points of a thread that calls `thr_pool_queue`, `thr_pool_wait` and `thr_pool_destroy`. -/
inductive ClientPc
  | call
  | queueLock | queue | signal | queueUnlock
  | waitLock | waitTest | wait | waitWake | waitUnlock
  | destroyLock | mark | broadcast | active | activeWait | activeWake | nthreads | busyWait
  | busyWake | destroyUnlock | free | gone
  deriving DecidableEq

inductive Pc
  | worker (p : WorkerPc)
  | client (p : ClientPc)
  deriving DecidableEq

inductive Call
  | queue
  | wait
  | destroy
  deriving DecidableEq

/-- What the code leaves open: the thread that `pthread_create` makes, if it makes one; whether
`malloc` succeeds, a timed wait has expired, or a job calls `pthread_exit`; the next call. -/
structure Choice (τ : Type*) where
  thread : Option τ
  yes : Bool
  call : Call

/-- The bounds that a pool is created with. -/
structure Limits where
  minimum : Int
  maximum : Int
  linger : Nat
  deriving DecidableEq

/-- `none` is `EINVAL`; the bounds are kept in variables of type `int`. -/
def thrPoolCreate (minThreads maxThreads linger : UInt32) : Option Limits :=
  if maxThreads < minThreads ∨ maxThreads < 1 then none
  else some ⟨minThreads.toInt32.toInt, maxThreads.toInt32.toInt, linger.toNat⟩

/-- The pool and the threads' locals `job` and `timedout`. A job is known by the number of the call
of `malloc` that made it. `queued`, `started` and `done` are the jobs that have been put in the
queue, taken out of it, and performed. -/
structure Pool (τ : Type*) where
  head : Option Nat
  tail : Option Nat
  jobNext : Nat → Option Nat
  active : List τ
  poolWait : Bool
  poolDestroy : Bool
  nthreads : Int
  idle : Int
  created : τ → Bool
  job : τ → Option Nat
  timedout : τ → Bool
  made : Nat
  queued : List Nat
  started : List Nat
  done : List Nat
  freed : Bool

variable {τ : Type*} [DecidableEq τ]

abbrev Op (τ : Type*) := Instr τ Unit Cond (Pool τ) Pc (Choice τ)

def act (f : τ → Choice τ → Pool τ → Pool τ × Pc) : Op τ := .act fun t c d => some (f t c d)

/-- `create_worker`, where it is called, with the count of the threads. -/
def createWorker (c : Choice τ) (d : Pool τ) : Pool τ :=
  match c.thread with
  | some u =>
    if d.created u then d
    else { d with created := Function.update d.created u true, nthreads := d.nthreads + 1 }
  | none => d

/-- `notify_waiters`, where `POOL_WAIT` is set; `announce` is where it broadcasts. -/
def notifyWaiters (announce next : Pc) (d : Pool τ) : Pool τ × Pc :=
  if d.poolWait ∧ d.head = none ∧ d.active = [] then ({ d with poolWait := false }, announce)
  else (d, next)

/-- The first job of the queue taken out of it, and the thread put in front of the active ones. -/
def takeJob (t : τ) (job : Nat) (d : Pool τ) : Pool τ :=
  { d with
    timedout := Function.update d.timedout t false
    job := Function.update d.job t (some job)
    head := d.jobNext job
    tail := if d.tail = some job then none else d.tail
    active := t :: d.active
    started := d.started ++ [job] }

/-- The thread's job put behind the others. -/
def queueJob (t : τ) (d : Pool τ) : Pool τ :=
  match d.job t with
  | some job =>
    { d with
      jobNext := match d.head, d.tail with
        | some _, some last => Function.update d.jobNext last (some job)
        | _, _ => d.jobNext
      head := if d.head = none then some job else d.head
      tail := some job
      queued := d.queued ++ [job] }
  | none => d

def afterJob (exits : Bool) : Pc := if exits then .worker .cleanup else .worker .again

@[simp] def worker (lim : Limits) : WorkerPc → Op τ
  | .create => .act fun t _ d => if d.created t then some (d, .worker .lock) else none
  | .lock => .lock () (.worker .loop)
  | .loop => act fun t _ d => notifyWaiters (.worker .notify) (.worker .test)
      { d with timedout := Function.update d.timedout t false, idle := d.idle + 1 }
  | .notify => .broadcast .waitcv (.worker .test)
  | .test => act fun t _ d =>
      if d.head = none ∧ d.poolDestroy = false then
        if d.nthreads ≤ lim.minimum then (d, .worker .wait)
        else if lim.linger = 0 then
          ({ d with timedout := Function.update d.timedout t true }, .worker .leave)
        else (d, .worker .timedwait)
      else (d, .worker .leave)
  | .wait => .wait .workcv () (.worker .wake)
  | .wake => .lock () (.worker .test)
  | .timedwait => .wait .workcv () (.worker .timedwake)
  | .timedwake => .lock () (.worker .timeout)
  | .timeout => act fun t c d =>
      if c.yes then ({ d with timedout := Function.update d.timedout t true }, .worker .leave)
      else (d, .worker .test)
  | .leave => act fun t _ d =>
      let d := { d with idle := d.idle - 1 }
      if d.poolDestroy then (d, .worker .cleanup)
      else match d.head with
        | some job => (takeJob t job d, .worker .unlock)
        | none => (d, .worker .again)
  | .unlock => .unlock () (.worker .run)
  | .run => act fun t c d =>
      ({ d with done := d.done ++ (d.job t).toList }, .worker (.jobLock c.yes))
  | .jobLock exits => .lock () (.worker (.jobCleanup exits))
  | .jobCleanup exits => act fun t _ d => notifyWaiters (.worker (.jobNotify exits)) (afterJob exits)
      { d with active := d.active.erase t }
  | .jobNotify exits => .broadcast .waitcv (afterJob exits)
  | .again => act fun t _ d =>
      (d, if d.timedout t ∧ lim.minimum < d.nthreads then .worker .cleanup else .worker .loop)
  | .cleanup => act fun _ c d =>
      let d := { d with nthreads := d.nthreads - 1 }
      if d.poolDestroy then
        (d, if d.nthreads = 0 then .worker .broadcast else .worker .cleanupUnlock)
      else
        (if d.head ≠ none ∧ d.nthreads < lim.maximum then createWorker c d else d,
          .worker .cleanupUnlock)
  | .broadcast => .broadcast .busycv (.worker .cleanupUnlock)
  | .cleanupUnlock => .unlock () (.worker .exit)
  | .exit => .halt

@[simp] def client (lim : Limits) : ClientPc → Op τ
  | .call => act fun t c d =>
      match c.call with
      | .queue =>
        if c.yes then
          ({ d with
            job := Function.update d.job t (some d.made)
            jobNext := Function.update d.jobNext d.made none
            made := d.made + 1 }, .client .queueLock)
        else (d, .client .call)
      | .wait => (d, .client .waitLock)
      | .destroy => (d, .client .destroyLock)
  | .queueLock => .lock () (.client .queue)
  | .queue => act fun t c d =>
      let d := queueJob t d
      if 0 < d.idle then (d, .client .signal)
      else (if d.nthreads < lim.maximum then createWorker c d else d, .client .queueUnlock)
  | .signal => .signal .workcv (.client .queueUnlock)
  | .queueUnlock => .unlock () (.client .call)
  | .waitLock => .lock () (.client .waitTest)
  | .waitTest => act fun _ _ d =>
      if d.head ≠ none ∨ d.active ≠ [] then ({ d with poolWait := true }, .client .wait)
      else (d, .client .waitUnlock)
  | .wait => .wait .waitcv () (.client .waitWake)
  | .waitWake => .lock () (.client .waitTest)
  | .waitUnlock => .unlock () (.client .call)
  | .destroyLock => .lock () (.client .mark)
  | .mark => act fun _ _ d => ({ d with poolDestroy := true }, .client .broadcast)
  | .broadcast => .broadcast .workcv (.client .active)
  -- cancelling the active workers makes their jobs exit, which any job may do at any time
  | .active => act fun _ _ d =>
      if d.active ≠ [] then ({ d with poolWait := true }, .client .activeWait)
      else (d, .client .nthreads)
  | .activeWait => .wait .waitcv () (.client .activeWake)
  | .activeWake => .lock () (.client .active)
  | .nthreads => act fun _ _ d =>
      (d, if d.nthreads ≠ 0 then .client .busyWait else .client .destroyUnlock)
  | .busyWait => .wait .busycv () (.client .busyWake)
  | .busyWake => .lock () (.client .nthreads)
  | .destroyUnlock => .unlock () (.client .free)
  | .free => act fun _ _ d => ({ d with head := none, freed := true }, .client .gone)
  | .gone => .halt

@[simp] def code (lim : Limits) : Pc → Op τ
  | .worker p => worker lim p
  | .client p => client lim p

abbrev State (τ : Type*) := Machine τ Unit Cond (Pool τ) Pc

abbrev Step (τ : Type*) := Event τ Cond (Choice τ)

def Entry (p : Pc) : Prop := p = .worker .create ∨ p = .client .call

instance (p : Pc) : Decidable (Entry p) := inferInstanceAs (Decidable (_ ∨ _))

def init (pc : τ → Pc) (jobNext : Nat → Option Nat) : State τ :=
  .start pc
    { head := none
      tail := none
      jobNext := jobNext
      active := []
      poolWait := false
      poolDestroy := false
      nthreads := 0
      idle := 0
      created := fun t => decide (pc t = .client .call)
      job := fun _ => none
      timedout := fun _ => false
      made := 0
      queued := []
      started := []
      done := []
      freed := false }

/-- All that a step on the data can do at a point, with the point after it. -/
inductive Effect (lim : Limits) (t : τ) (d : Pool τ) : Pc → Pc → Pool τ → Prop
  | born (h : d.created t = true) : Effect lim t d (.worker .create) (.worker .lock) d
  | loop (h : ¬(d.poolWait = true ∧ d.head = none ∧ d.active = [])) :
      Effect lim t d (.worker .loop) (.worker .test)
        { d with timedout := Function.update d.timedout t false, idle := d.idle + 1 }
  | loopNotify (quiet : d.head = none ∧ d.active = []) :
      Effect lim t d (.worker .loop) (.worker .notify) { d with
        timedout := Function.update d.timedout t false, idle := d.idle + 1, poolWait := false }
  | sleep (head : d.head = none) (alive : d.poolDestroy = false) (few : d.nthreads ≤ lim.minimum) :
      Effect lim t d (.worker .test) (.worker .wait) d
  | doze (head : d.head = none) (alive : d.poolDestroy = false) :
      Effect lim t d (.worker .test) (.worker .timedwait) d
  | expire {p : WorkerPc} (hp : p = .test ∨ p = .timeout) : Effect lim t d (.worker p) (.worker .leave)
        { d with timedout := Function.update d.timedout t true }
  | rouse : Effect lim t d (.worker .test) (.worker .leave) d
  | retry : Effect lim t d (.worker .timeout) (.worker .test) d
  | stop (ending : d.poolDestroy = true) : Effect lim t d (.worker .leave) (.worker .cleanup)
        { d with idle := d.idle - 1 }
  | take (job : Nat) (head : d.head = some job) (alive : d.poolDestroy = false) :
      Effect lim t d (.worker .leave) (.worker .unlock) (takeJob t job { d with idle := d.idle - 1 })
  | nothing (head : d.head = none) (alive : d.poolDestroy = false) :
      Effect lim t d (.worker .leave) (.worker .again) { d with idle := d.idle - 1 }
  | run (exits : Bool) : Effect lim t d (.worker .run) (.worker (.jobLock exits))
        { d with done := d.done ++ (d.job t).toList }
  | jobOver (exits : Bool) (h : ¬(d.poolWait = true ∧ d.head = none ∧ d.active.erase t = [])) :
      Effect lim t d (.worker (.jobCleanup exits)) (afterJob exits)
        { d with active := d.active.erase t }
  | jobNotify (exits : Bool) (quiet : d.head = none ∧ d.active.erase t = []) :
      Effect lim t d (.worker (.jobCleanup exits)) (.worker (.jobNotify exits))
        { d with active := d.active.erase t, poolWait := false }
  | stay : Effect lim t d (.worker .again) (.worker .loop) d
  | shrink (many : lim.minimum < d.nthreads) : Effect lim t d (.worker .again) (.worker .cleanup) d
  | last (ending : d.poolDestroy = true) (none : d.nthreads - 1 = 0) :
      Effect lim t d (.worker .cleanup) (.worker .broadcast) { d with nthreads := d.nthreads - 1 }
  | exit (h : d.poolDestroy = true → d.nthreads - 1 ≠ 0) :
      Effect lim t d (.worker .cleanup) (.worker .cleanupUnlock) { d with nthreads := d.nthreads - 1 }
  | replace (u : τ) (fresh : d.created u = false) (alive : d.poolDestroy = false)
      (few : d.nthreads - 1 < lim.maximum) :
      Effect lim t d (.worker .cleanup) (.worker .cleanupUnlock) { d with
        nthreads := d.nthreads - 1 + 1, created := Function.update d.created u true }
  | newJob : Effect lim t d (.client .call) (.client .queueLock) { d with
        job := Function.update d.job t (some d.made)
        jobNext := Function.update d.jobNext d.made none
        made := d.made + 1 }
  | goes {p : ClientPc} (hp : p = .call ∨ p = .waitLock ∨ p = .destroyLock) :
      Effect lim t d (.client .call) (.client p) d
  | signal (idle : 0 < d.idle) : Effect lim t d (.client .queue) (.client .signal) (queueJob t d)
  | queue (idle : d.idle ≤ 0) : Effect lim t d (.client .queue) (.client .queueUnlock) (queueJob t d)
  | grow (u : τ) (fresh : d.created u = false) (idle : d.idle ≤ 0) (few : d.nthreads < lim.maximum) :
      Effect lim t d (.client .queue) (.client .queueUnlock) { queueJob t d with
        nthreads := d.nthreads + 1, created := Function.update d.created u true }
  | more (work : d.head ≠ none ∨ d.active ≠ []) :
      Effect lim t d (.client .waitTest) (.client .wait) { d with poolWait := true }
  | finished (quiet : d.head = none ∧ d.active = []) :
      Effect lim t d (.client .waitTest) (.client .waitUnlock) d
  | mark : Effect lim t d (.client .mark) (.client .broadcast) { d with poolDestroy := true }
  | active (work : d.active ≠ []) :
      Effect lim t d (.client .active) (.client .activeWait) { d with poolWait := true }
  | inactive (quiet : d.active = []) : Effect lim t d (.client .active) (.client .nthreads) d
  | busy (some : d.nthreads ≠ 0) : Effect lim t d (.client .nthreads) (.client .busyWait) d
  | deserted (none : d.nthreads = 0) : Effect lim t d (.client .nthreads) (.client .destroyUnlock) d
  | free : Effect lim t d (.client .free) (.client .gone) { d with head := none, freed := true }

section Inversion

variable {lim : Limits} {t : τ} {c : Choice τ} {p q : Pc} {d d' : Pool τ}

omit [DecidableEq τ] in
theorem act_cases {g : τ → Choice τ → Pool τ → Pool τ × Pc}
    {f : τ → Choice τ → Pool τ → Option (Pool τ × Pc)} (hf : act g = .act f)
    (hd : f t c d = some (d', q)) : g t c d = (d', q) := by
  obtain rfl := Instr.act.inj hf
  exact Option.some.inj hd

omit [DecidableEq τ] in
@[simp] theorem queueJob_idle (t : τ) (d : Pool τ) : (queueJob t d).idle = d.idle := by
  unfold queueJob
  split <;> rfl

omit [DecidableEq τ] in
@[simp] theorem queueJob_nthreads (t : τ) (d : Pool τ) : (queueJob t d).nthreads = d.nthreads := by
  unfold queueJob
  split <;> rfl

omit [DecidableEq τ] in
@[simp] theorem queueJob_created (t : τ) (d : Pool τ) : (queueJob t d).created = d.created := by
  unfold queueJob
  split <;> rfl

omit [DecidableEq τ] in
@[simp] theorem queueJob_active (t : τ) (d : Pool τ) : (queueJob t d).active = d.active := by
  unfold queueJob
  split <;> rfl

theorem createWorker_cases (c : Choice τ) (d : Pool τ) :
    createWorker c d = d ∨ ∃ u, d.created u = false ∧ createWorker c d =
      { d with created := Function.update d.created u true, nthreads := d.nthreads + 1 } := by
  unfold createWorker
  split
  next u _ =>
    by_cases hu : d.created u = true
    · exact .inl (if_pos hu)
    · exact .inr ⟨u, by simpa using hu, if_neg hu⟩
  next => exact .inl rfl

omit [DecidableEq τ] in
theorem notifyWaiters_cases {announce next : Pc} (h : notifyWaiters announce next d = (d', q)) :
    (d.head = none ∧ d.active = []) ∧ d' = { d with poolWait := false } ∧ q = announce ∨
      ¬(d.poolWait = true ∧ d.head = none ∧ d.active = []) ∧ d' = d ∧ q = next := by
  unfold notifyWaiters at h
  split at h
  next hq =>
    obtain ⟨rfl, rfl⟩ := Prod.mk.inj h
    exact .inl ⟨hq.2, rfl, rfl⟩
  next hq =>
    obtain ⟨rfl, rfl⟩ := Prod.mk.inj h
    exact .inr ⟨hq, rfl, rfl⟩

theorem test_effect {f : τ → Choice τ → Pool τ → Option (Pool τ × Pc)}
    (hf : worker lim .test = .act f) (hd : f t c d = some (d', q)) : Effect lim t d (.worker .test) q d' := by
  have hg := act_cases hf hd
  split at hg
  next hwait =>
    split at hg
    next few =>
      obtain ⟨rfl, rfl⟩ := Prod.mk.inj hg
      exact .sleep hwait.1 hwait.2 few
    next =>
      split at hg
      next =>
        obtain ⟨rfl, rfl⟩ := Prod.mk.inj hg
        exact .expire (.inl rfl)
      next =>
        obtain ⟨rfl, rfl⟩ := Prod.mk.inj hg
        exact .doze hwait.1 hwait.2
  next =>
    obtain ⟨rfl, rfl⟩ := Prod.mk.inj hg
    exact .rouse

theorem leave_effect {f : τ → Choice τ → Pool τ → Option (Pool τ × Pc)}
    (hf : worker lim .leave = .act f) (hd : f t c d = some (d', q)) : Effect lim t d (.worker .leave) q d' := by
  have hg := act_cases hf hd
  simp only at hg
  split at hg
  next ending =>
    obtain ⟨rfl, rfl⟩ := Prod.mk.inj hg
    exact .stop ending
  next alive =>
    rw [Bool.not_eq_true] at alive
    split at hg
    next job head =>
      obtain ⟨rfl, rfl⟩ := Prod.mk.inj hg
      exact .take job head alive
    next head =>
      obtain ⟨rfl, rfl⟩ := Prod.mk.inj hg
      exact .nothing head alive

/-- The last worker of a pool that is destroyed tells so; of another pool, a worker may be replaced. -/
theorem cleanup_effect {f : τ → Choice τ → Pool τ → Option (Pool τ × Pc)}
    (hf : worker lim .cleanup = .act f) (hd : f t c d = some (d', q)) :
    Effect lim t d (.worker .cleanup) q d' := by
  have hg := act_cases hf hd
  simp only at hg
  split at hg
  next ending =>
    obtain ⟨rfl, rfl⟩ := Prod.mk.inj hg
    split
    next none => exact .last ending none
    next some => exact .exit fun _ => some
  next alive =>
    rw [Bool.not_eq_true] at alive
    have hno : d.poolDestroy = true → d.nthreads - 1 ≠ 0 := fun h => by simp [alive] at h
    obtain ⟨rfl, rfl⟩ := Prod.mk.inj hg
    split
    next few =>
      rcases createWorker_cases c { d with nthreads := d.nthreads - 1 } with he | ⟨u, fresh, he⟩
      · rw [he]
        exact .exit hno
      · rw [he]
        exact .replace u fresh alive few.2
    next => exact .exit hno

theorem worker_effect {w : WorkerPc} {f : τ → Choice τ → Pool τ → Option (Pool τ × Pc)}
    (hf : worker lim w = .act f) (hd : f t c d = some (d', q)) : Effect lim t d (.worker w) q d' := by
  cases w with
  | create =>
    obtain rfl := Instr.act.inj hf
    simp only [Option.ite_none_right_eq_some, Option.some.injEq, Prod.mk.injEq] at hd
    obtain ⟨hcreated, rfl, rfl⟩ := hd
    exact .born hcreated
  | loop =>
    rcases notifyWaiters_cases (act_cases hf hd) with ⟨quiet, rfl, rfl⟩ | ⟨hno, rfl, rfl⟩
    · exact .loopNotify quiet
    · exact .loop hno
  | test => exact test_effect hf hd
  | timeout =>
    have hg := act_cases hf hd
    split at hg
    next =>
      obtain ⟨rfl, rfl⟩ := Prod.mk.inj hg
      exact .expire (.inr rfl)
    next =>
      obtain ⟨rfl, rfl⟩ := Prod.mk.inj hg
      exact .retry
  | leave => exact leave_effect hf hd
  | run =>
    obtain ⟨rfl, rfl⟩ := Prod.mk.inj (act_cases hf hd)
    exact .run c.yes
  | jobCleanup exits =>
    rcases notifyWaiters_cases (act_cases hf hd) with ⟨quiet, rfl, rfl⟩ | ⟨hno, rfl, rfl⟩
    · exact .jobNotify exits quiet
    · exact .jobOver exits hno
  | again =>
    obtain ⟨rfl, rfl⟩ := Prod.mk.inj (act_cases hf hd)
    split
    next h => exact .shrink h.2
    next => exact .stay
  | cleanup => exact cleanup_effect hf hd
  | lock | notify | wait | wake | timedwait | timedwake | unlock | jobLock | jobNotify | broadcast
  | cleanupUnlock | exit => simp at hf

theorem client_effect {w : ClientPc} {f : τ → Choice τ → Pool τ → Option (Pool τ × Pc)}
    (hf : client lim w = .act f) (hd : f t c d = some (d', q)) : Effect lim t d (.client w) q d' := by
  cases w with
  | call =>
    have hg := act_cases hf hd
    split at hg
    next =>
      split at hg
      next =>
        obtain ⟨rfl, rfl⟩ := Prod.mk.inj hg
        exact .newJob
      next =>
        obtain ⟨rfl, rfl⟩ := Prod.mk.inj hg
        exact .goes (.inl rfl)
    next =>
      obtain ⟨rfl, rfl⟩ := Prod.mk.inj hg
      exact .goes (.inr (.inl rfl))
    next =>
      obtain ⟨rfl, rfl⟩ := Prod.mk.inj hg
      exact .goes (.inr (.inr rfl))
  | queue =>
    have hg := act_cases hf hd
    simp only [queueJob_idle, queueJob_nthreads] at hg
    split at hg
    next idle =>
      obtain ⟨rfl, rfl⟩ := Prod.mk.inj hg
      exact .signal idle
    next idle =>
      obtain ⟨rfl, rfl⟩ := Prod.mk.inj hg
      split
      next few =>
        rcases createWorker_cases c (queueJob t d) with he | ⟨u, fresh, he⟩
        · rw [he]
          exact .queue (by omega)
        · rw [he, queueJob_created, queueJob_nthreads]
          exact .grow u (by simpa using fresh) (by omega) few
      next => exact .queue (by omega)
  | waitTest =>
    have hg := act_cases hf hd
    split at hg
    next work =>
      obtain ⟨rfl, rfl⟩ := Prod.mk.inj hg
      exact .more work
    next quiet =>
      obtain ⟨rfl, rfl⟩ := Prod.mk.inj hg
      exact .finished (by simpa using quiet)
  | mark =>
    obtain ⟨rfl, rfl⟩ := Prod.mk.inj (act_cases hf hd)
    exact .mark
  | active =>
    have hg := act_cases hf hd
    split at hg
    next work =>
      obtain ⟨rfl, rfl⟩ := Prod.mk.inj hg
      exact .active work
    next quiet =>
      obtain ⟨rfl, rfl⟩ := Prod.mk.inj hg
      exact .inactive (not_not.mp quiet)
  | nthreads =>
    obtain ⟨rfl, rfl⟩ := Prod.mk.inj (act_cases hf hd)
    split
    next some => exact .busy some
    next none => exact .deserted (not_not.mp none)
  | free =>
    obtain ⟨rfl, rfl⟩ := Prod.mk.inj (act_cases hf hd)
    exact .free
  | queueLock | signal | queueUnlock | waitLock | wait | waitWake | waitUnlock | destroyLock
  | broadcast | activeWait | activeWake | busyWait | busyWake | destroyUnlock | gone => simp at hf

theorem effect_of_act {f : τ → Choice τ → Pool τ → Option (Pool τ × Pc)}
    (hf : code lim p = .act f) (hd : f t c d = some (d', q)) : Effect lim t d p q d' := by
  cases p with
  | worker w => exact worker_effect hf hd
  | client w => exact client_effect hf hd

end Inversion

theorem step_effect {lim : Limits} {s s' : State τ} {t : τ} {c : Choice τ} {woken : Finset τ}
    (h : s.step (code lim) (.run t c woken) = some s') :
    ∃ next, s'.pc = Function.update s.pc t next ∧
      ((code lim (s.pc t) : Op τ).next? = some next ∧ s'.data = s.data ∨
        Effect lim t s.data (s.pc t) next s'.data) := by
  obtain ⟨-, next, hpc, hsync | ⟨f, hf, hd, -⟩⟩ := step_run h
  · exact ⟨next, hpc, .inl hsync⟩
  · exact ⟨next, hpc, .inr (effect_of_act hf hd)⟩

/-- Where a thread holds `pool_mutex`. -/
def critical : Pc → Bool
  | .worker p => !(p matches .create | .lock | .wake | .timedwake | .run | .jobLock _ | .exit)
  | .client p => (p matches .queue | .signal | .queueUnlock | .waitTest | .wait | .waitUnlock | .mark |
      .broadcast | .active | .activeWait | .nthreads | .busyWait | .destroyUnlock)

@[simp] theorem critical_afterJob (exits : Bool) : critical (afterJob exits) = true := by
  cases exits <;> rfl

theorem critical_of_effect {lim : Limits} {t : τ} {p q : Pc} {d d' : Pool τ}
    (h : Effect lim t d p q d') : critical q = critical p := by
  cases h with
  | jobOver => exact critical_afterJob _
  | expire hp => rcases hp with rfl | rfl <;> rfl
  | goes hp => rcases hp with rfl | rfl | rfl <;> rfl
  | _ => rfl

theorem guards (lim : Limits) : Guards (code (τ := τ) lim) (fun _ _ => True) () critical
    (fun _ => True) where
  sound p _ := by
    rcases p with p | p <;> cases p <;> simp [critical, Instr.hold, act]
  sync s t choice woken next _ _ hn := by
    generalize s.pc t = p at hn
    rcases p with p | p <;> cases p <;>
      simp [Instr.next?, act] at hn <;> subst hn <;> simp [critical, Instr.hold]
    next exits => cases exits <;> rfl
  act s t choice woken f d next _ _ hf hd := ⟨critical_of_effect (effect_of_act hf hd), trivial⟩

theorem guarded {lim : Limits} {pc : τ → Pc} (hpc : ∀ t, Entry (pc t)) {jobNext : Nat → Option Nat}
    {C : State τ → Step τ → Prop} {s : State τ}
    (h : Reaches (Machine.step (code lim)) C (init pc jobNext) s) :
    Guarded () critical (fun _ => True) s := by
  apply (guards lim).reaches (fun _ => trivial) (fun t => ?_) (h.mono fun _ _ _ => trivial)
  rcases hpc t with h | h <;> simp [h, critical]

omit [DecidableEq τ] in
theorem alone {s : State τ} (hs : Guarded () critical (fun _ => True) s) {t u : τ}
    (ht : critical (s.pc t) = true) (hu : critical (s.pc u) = true) : t = u := by
  have he := ((hs.owner t).mpr ht).symm.trans ((hs.owner u).mpr hu)
  exact Option.some.inj he

end ThreadPool

end TcpAndParallel
