import TcpAndParallel.Monitors
import TcpAndParallel.WorkQueue

namespace TcpAndParallel

namespace Workcrew

inductive Control
  | aq
  | rq
  deriving DecidableEq

instance : Fintype Control := ⟨{.aq, .rq}, by rintro (_ | _) <;> simp⟩

/-- The points of `acceptor`. `lock` is both the first lock and the one at the end of the inner
loop, which has one round; from `ouch` the `break` leads back to the test of the outer loop. -/
inductive AcceptorPc
  | lock | test | malloc | ouch | number | stamp | put | unlock | signal | logAcceptor | logJob
  | leave | done
  deriving DecidableEq

/-- The points of `processor`; `leave` and `leaveRq` are the two unlocks after the loop. -/
inductive ProcessorPc
  | lock | test | check | wait | wake | stop | get | stamp | unlock | lockRq | put | unlockRq
  | signal | logProcessor | logJob | logAcceptor | leave | leaveRq | done
  deriving DecidableEq

inductive ResponderPc
  | lock | test | check | wait | wake | stop | get | stamp | unlock | logResponder | logJob
  | logProcessor | send | free | leave | done
  deriving DecidableEq

/-- The points of `stop_server` in its first two calls of `control_deactivate`. -/
inductive StopPc
  | lock | clear | unlock | broadcast | lockRq | clearRq | unlockRq | broadcastRq | done
  deriving DecidableEq

inductive Pc
  | acceptor (p : AcceptorPc)
  | processor (p : ProcessorPc)
  | responder (p : ResponderPc)
  | stop (p : StopPc)
  deriving DecidableEq

/-- The shared data and the workers' local node pointers. A node is the number of the `malloc`
that made it, and `freed` are the nodes passed to `free`. `produced` are the nodes that were put
on the accept queue and `responded` those that a responder has sent the message for, each in
order. -/
structure Crew (τ : Type*) where
  aqActive : Bool
  rqActive : Bool
  aq : Queue Nat
  rq : Queue Nat
  next : Nat → Option Nat
  job : Nat → Int32
  acceptor : Nat → Option τ
  processor : Nat → Option τ
  responder : Nat → Option τ
  numconnects : Int32
  hand : τ → Option Nat
  mallocs : Nat
  freed : Nat → Bool
  produced : List Nat
  responded : List Nat

def initializeStructs (τ : Type*) : Crew τ where
  aqActive := true
  rqActive := true
  aq := queueInit
  rq := queueInit
  next _ := none
  job _ := 0
  acceptor _ := none
  processor _ := none
  responder _ := none
  numconnects := 0
  hand _ := none
  mallocs := 0
  freed _ := false
  produced := []
  responded := []

variable {τ : Type*} [DecidableEq τ]

/-- An instruction of the crew. The choice of the environment is whether a `malloc` succeeds. -/
abbrev Op (τ : Type*) := Instr τ Control Control (Crew τ) Pc Bool

/-- A test or a read that changes nothing. -/
def branch (next : Crew τ → Pc) : Op τ := .act fun _ _ d => some (d, next d)

/-- A step on the node that the thread has in hand; none is taken through a null pointer. -/
def onNode (f : τ → Nat → Crew τ → Crew τ) (next : Pc) : Op τ :=
  .act fun t _ d => (d.hand t).map fun n => (f t n d, next)

def readNode (next : Pc) : Op τ := onNode (fun _ _ d => d) next

@[simp] def acceptor : AcceptorPc → Op τ
  | .lock => .lock .aq (.acceptor .test)
  | .test => branch fun d => if d.aqActive then .acceptor .malloc else .acceptor .leave
  | .malloc => .act fun t success d =>
    if success then some ({ d with
        hand := Function.update d.hand t (some d.mallocs)
        mallocs := d.mallocs + 1 }, .acceptor .number)
    else some ({ d with hand := Function.update d.hand t none }, .acceptor .ouch)
  | .ouch => .unlock .aq (.acceptor .test)
  | .number => onNode (fun _ n d => { d with
      job := Function.update d.job n d.numconnects
      numconnects := d.numconnects + 1 }) (.acceptor .stamp)
  | .stamp => onNode (fun t n d => { d with acceptor := Function.update d.acceptor n (some t) })
      (.acceptor .put)
  | .put => onNode (fun _ n d => { d with
      next := (queuePut d.next d.aq n).1
      aq := (queuePut d.next d.aq n).2
      produced := d.produced ++ [n] }) (.acceptor .unlock)
  | .unlock => .unlock .aq (.acceptor .signal)
  | .signal => .signal .aq (.acceptor .logAcceptor)
  | .logAcceptor => readNode (.acceptor .logJob)
  | .logJob => readNode (.acceptor .lock)
  | .leave => .unlock .aq (.acceptor .done)
  | .done => .halt

@[simp] def processor : ProcessorPc → Op τ
  | .lock => .lock .aq (.processor .test)
  | .test => branch fun d => if d.rqActive then .processor .check else .processor .leave
  | .check => branch fun d =>
    if d.aq.head = none ∧ d.aqActive then .processor .wait else .processor .stop
  | .wait => .wait .aq .aq (.processor .wake)
  | .wake => .lock .aq (.processor .check)
  | .stop => branch fun d => if d.aqActive then .processor .get else .processor .leave
  | .get => .act fun t _ d => some ({ d with
      hand := Function.update d.hand t (queueGet d.next d.aq).1
      aq := (queueGet d.next d.aq).2 }, .processor .stamp)
  | .stamp => onNode (fun t n d => { d with processor := Function.update d.processor n (some t) })
      (.processor .unlock)
  | .unlock => .unlock .aq (.processor .lockRq)
  | .lockRq => .lock .rq (.processor .put)
  | .put => onNode (fun _ n d => { d with
      next := (queuePut d.next d.rq n).1
      rq := (queuePut d.next d.rq n).2 }) (.processor .unlockRq)
  | .unlockRq => .unlock .rq (.processor .signal)
  | .signal => .signal .rq (.processor .logProcessor)
  | .logProcessor => readNode (.processor .logJob)
  | .logJob => readNode (.processor .logAcceptor)
  | .logAcceptor => readNode (.processor .lock)
  | .leave => .unlock .aq (.processor .leaveRq)
  | .leaveRq => .unlock .rq (.processor .done)
  | .done => .halt

@[simp] def responder : ResponderPc → Op τ
  | .lock => .lock .rq (.responder .test)
  | .test => branch fun d => if d.rqActive then .responder .check else .responder .leave
  | .check => branch fun d =>
    if d.rq.head = none ∧ d.rqActive then .responder .wait else .responder .stop
  | .wait => .wait .rq .rq (.responder .wake)
  | .wake => .lock .rq (.responder .check)
  | .stop => branch fun d => if d.rqActive then .responder .get else .responder .leave
  | .get => .act fun t _ d => some ({ d with
      hand := Function.update d.hand t (queueGet d.next d.rq).1
      rq := (queueGet d.next d.rq).2 }, .responder .stamp)
  | .stamp => onNode (fun t n d => { d with responder := Function.update d.responder n (some t) })
      (.responder .unlock)
  | .unlock => .unlock .rq (.responder .logResponder)
  | .logResponder => readNode (.responder .logJob)
  | .logJob => readNode (.responder .logProcessor)
  | .logProcessor => readNode (.responder .send)
  | .send => onNode (fun _ n d => { d with responded := d.responded ++ [n] }) (.responder .free)
  | .free => onNode (fun _ n d => { d with freed := Function.update d.freed n true }) (.responder .lock)
  | .leave => .unlock .rq (.responder .done)
  | .done => .halt

@[simp] def stopServer : StopPc → Op τ
  | .lock => .lock .aq (.stop .clear)
  | .clear => .act fun _ _ d => some ({ d with aqActive := false }, .stop .unlock)
  | .unlock => .unlock .aq (.stop .broadcast)
  | .broadcast => .broadcast .aq (.stop .lockRq)
  | .lockRq => .lock .rq (.stop .clearRq)
  | .clearRq => .act fun _ _ d => some ({ d with rqActive := false }, .stop .unlockRq)
  | .unlockRq => .unlock .rq (.stop .broadcastRq)
  | .broadcastRq => .broadcast .rq (.stop .done)
  | .done => .halt

@[simp] def code : Pc → Op τ
  | .acceptor p => acceptor p
  | .processor p => processor p
  | .responder p => responder p
  | .stop p => stopServer p

abbrev State (τ : Type*) := Machine τ Control Control (Crew τ) Pc

abbrev Step (τ : Type*) := Event τ Control Bool

/-- The ways the tests of the loops go. -/
inductive Test (d : Crew τ) : Pc → Pc → Prop
  | acceptorGoes (h : d.aqActive = true) : Test d (.acceptor .test) (.acceptor .malloc)
  | acceptorLeaves (h : d.aqActive = false) : Test d (.acceptor .test) (.acceptor .leave)
  | processorGoes (h : d.rqActive = true) : Test d (.processor .test) (.processor .check)
  | processorLeaves (h : d.rqActive = false) : Test d (.processor .test) (.processor .leave)
  | processorWaits (he : d.aq.head = none) (h : d.aqActive = true) :
      Test d (.processor .check) (.processor .wait)
  | processorRises (h : ¬(d.aq.head = none ∧ d.aqActive = true)) :
      Test d (.processor .check) (.processor .stop)
  | processorGets (h : d.aqActive = true) : Test d (.processor .stop) (.processor .get)
  | processorBreaks (h : d.aqActive = false) : Test d (.processor .stop) (.processor .leave)
  | responderGoes (h : d.rqActive = true) : Test d (.responder .test) (.responder .check)
  | responderLeaves (h : d.rqActive = false) : Test d (.responder .test) (.responder .leave)
  | responderWaits (he : d.rq.head = none) (h : d.rqActive = true) :
      Test d (.responder .check) (.responder .wait)
  | responderRises (h : ¬(d.rq.head = none ∧ d.rqActive = true)) :
      Test d (.responder .check) (.responder .stop)
  | responderGets (h : d.rqActive = true) : Test d (.responder .stop) (.responder .get)
  | responderBreaks (h : d.rqActive = false) : Test d (.responder .stop) (.responder .leave)

inductive Log : Pc → Pc → Prop
  | acceptor : Log (.acceptor .logAcceptor) (.acceptor .logJob)
  | acceptorJob : Log (.acceptor .logJob) (.acceptor .lock)
  | processor : Log (.processor .logProcessor) (.processor .logJob)
  | processorJob : Log (.processor .logJob) (.processor .logAcceptor)
  | processorAcceptor : Log (.processor .logAcceptor) (.processor .lock)
  | responder : Log (.responder .logResponder) (.responder .logJob)
  | responderJob : Log (.responder .logJob) (.responder .logProcessor)
  | responderProcessor : Log (.responder .logProcessor) (.responder .send)

/-- All that a step on the data can do at a point `p`, with the point after it. -/
inductive Effect (t : τ) (choice : Bool) (d : Crew τ) : Pc → Pc → Crew τ → Prop
  | test {p q : Pc} (h : Test d p q) : Effect t choice d p q d
  | log {p q : Pc} {n : Nat} (h : Log p q) (hn : d.hand t = some n) : Effect t choice d p q d
  | malloc (success : choice = true) : Effect t choice d (.acceptor .malloc) (.acceptor .number)
      { d with hand := Function.update d.hand t (some d.mallocs), mallocs := d.mallocs + 1 }
  | ouch (failure : choice = false) : Effect t choice d (.acceptor .malloc) (.acceptor .ouch)
      { d with hand := Function.update d.hand t none }
  | number {n : Nat} (hn : d.hand t = some n) : Effect t choice d (.acceptor .number) (.acceptor .stamp)
      { d with job := Function.update d.job n d.numconnects, numconnects := d.numconnects + 1 }
  | stamp {p q : Pc} {n : Nat} (hn : d.hand t = some n) (a b c : Nat → Option τ)
      (hp : p = .acceptor .stamp ∧ q = .acceptor .put ∨ p = .processor .stamp ∧ q = .processor .unlock ∨
        p = .responder .stamp ∧ q = .responder .unlock) :
      Effect t choice d p q { d with acceptor := a, processor := b, responder := c }
  | putAq {n : Nat} (hn : d.hand t = some n) : Effect t choice d (.acceptor .put) (.acceptor .unlock)
      { d with next := (queuePut d.next d.aq n).1, aq := (queuePut d.next d.aq n).2,
               produced := d.produced ++ [n] }
  | putRq {n : Nat} (hn : d.hand t = some n) : Effect t choice d (.processor .put) (.processor .unlockRq)
      { d with next := (queuePut d.next d.rq n).1, rq := (queuePut d.next d.rq n).2 }
  | getAq : Effect t choice d (.processor .get) (.processor .stamp)
      { d with hand := Function.update d.hand t (queueGet d.next d.aq).1, aq := (queueGet d.next d.aq).2 }
  | getRq : Effect t choice d (.responder .get) (.responder .stamp)
      { d with hand := Function.update d.hand t (queueGet d.next d.rq).1, rq := (queueGet d.next d.rq).2 }
  | send {n : Nat} (hn : d.hand t = some n) : Effect t choice d (.responder .send) (.responder .free)
      { d with responded := d.responded ++ [n] }
  | free {n : Nat} (hn : d.hand t = some n) : Effect t choice d (.responder .free) (.responder .lock)
      { d with freed := Function.update d.freed n true }
  | clear : Effect t choice d (.stop .clear) (.stop .unlock) { d with aqActive := false }
  | clearRq : Effect t choice d (.stop .clearRq) (.stop .unlockRq) { d with rqActive := false }

section Inversion

variable {t : τ} {choice : Bool} {p q : Pc} {d d' : Crew τ}
  {f : τ → Bool → Crew τ → Option (Crew τ × Pc)}

theorem branch_cases {next : Crew τ → Pc} (hb : code p = (branch next : Op τ))
    (hc : code p = .act f) (hd : f t choice d = some (d', q)) : d' = d ∧ q = next d := by
  obtain rfl := Instr.act.inj (hc.symm.trans hb)
  obtain ⟨rfl, rfl⟩ := Prod.mk.inj (Option.some.inj hd)
  exact ⟨rfl, rfl⟩

theorem onNode_cases {g : τ → Nat → Crew τ → Crew τ} {next : Pc} (hb : code p = onNode g next)
    (hc : code p = .act f) (hd : f t choice d = some (d', q)) :
    ∃ n, d.hand t = some n ∧ d' = g t n d ∧ q = next := by
  obtain rfl := Instr.act.inj (hc.symm.trans hb)
  obtain ⟨n, hn, he⟩ := Option.map_eq_some_iff.mp hd
  obtain ⟨rfl, rfl⟩ := Prod.mk.inj he
  exact ⟨n, hn, rfl, rfl⟩

theorem effect_of_log {next : Pc} (h : Log p next) (hb : code p = (readNode next : Op τ))
    (hc : code p = .act f) (hd : f t choice d = some (d', q)) : Effect t choice d p q d' := by
  obtain ⟨n, hn, rfl, rfl⟩ := onNode_cases hb hc hd
  exact .log h hn

theorem effect_of_acceptor {p : AcceptorPc} (hc : code (.acceptor p) = .act f)
    (hd : f t choice d = some (d', q)) : Effect t choice d (.acceptor p) q d' := by
  cases p with
  | test =>
    obtain ⟨rfl, rfl⟩ := branch_cases rfl hc hd
    split
    next h => exact .test (.acceptorGoes h)
    next h => exact .test (.acceptorLeaves (by simpa using h))
  | malloc =>
    obtain rfl := Instr.act.inj hc
    cases choice with
    | true =>
      obtain ⟨rfl, rfl⟩ := Prod.mk.inj (Option.some.inj hd)
      exact .malloc rfl
    | false =>
      obtain ⟨rfl, rfl⟩ := Prod.mk.inj (Option.some.inj hd)
      exact .ouch rfl
  | number =>
    obtain ⟨n, hn, rfl, rfl⟩ := onNode_cases rfl hc hd
    exact .number hn
  | stamp =>
    obtain ⟨n, hn, rfl, rfl⟩ := onNode_cases rfl hc hd
    exact .stamp hn _ _ _ (.inl ⟨rfl, rfl⟩)
  | put =>
    obtain ⟨n, hn, rfl, rfl⟩ := onNode_cases rfl hc hd
    exact .putAq hn
  | logAcceptor => exact effect_of_log .acceptor rfl hc hd
  | logJob => exact effect_of_log .acceptorJob rfl hc hd
  | lock | ouch | unlock | signal | leave | done => simp at hc

theorem effect_of_processor {p : ProcessorPc} (hc : code (.processor p) = .act f)
    (hd : f t choice d = some (d', q)) : Effect t choice d (.processor p) q d' := by
  cases p with
  | test =>
    obtain ⟨rfl, rfl⟩ := branch_cases rfl hc hd
    split
    next h => exact .test (.processorGoes h)
    next h => exact .test (.processorLeaves (by simpa using h))
  | check =>
    obtain ⟨rfl, rfl⟩ := branch_cases rfl hc hd
    split
    next h => exact .test (.processorWaits h.1 h.2)
    next h => exact .test (.processorRises h)
  | stop =>
    obtain ⟨rfl, rfl⟩ := branch_cases rfl hc hd
    split
    next h => exact .test (.processorGets h)
    next h => exact .test (.processorBreaks (by simpa using h))
  | get =>
    obtain rfl := Instr.act.inj hc
    obtain ⟨rfl, rfl⟩ := Prod.mk.inj (Option.some.inj hd)
    exact .getAq
  | stamp =>
    obtain ⟨n, hn, rfl, rfl⟩ := onNode_cases rfl hc hd
    exact .stamp hn _ _ _ (.inr (.inl ⟨rfl, rfl⟩))
  | put =>
    obtain ⟨n, hn, rfl, rfl⟩ := onNode_cases rfl hc hd
    exact .putRq hn
  | logProcessor => exact effect_of_log .processor rfl hc hd
  | logJob => exact effect_of_log .processorJob rfl hc hd
  | logAcceptor => exact effect_of_log .processorAcceptor rfl hc hd
  | lock | wait | wake | unlock | lockRq | unlockRq | signal | leave | leaveRq | done => simp at hc

theorem effect_of_responder {p : ResponderPc} (hc : code (.responder p) = .act f)
    (hd : f t choice d = some (d', q)) : Effect t choice d (.responder p) q d' := by
  cases p with
  | test =>
    obtain ⟨rfl, rfl⟩ := branch_cases rfl hc hd
    split
    next h => exact .test (.responderGoes h)
    next h => exact .test (.responderLeaves (by simpa using h))
  | check =>
    obtain ⟨rfl, rfl⟩ := branch_cases rfl hc hd
    split
    next h => exact .test (.responderWaits h.1 h.2)
    next h => exact .test (.responderRises h)
  | stop =>
    obtain ⟨rfl, rfl⟩ := branch_cases rfl hc hd
    split
    next h => exact .test (.responderGets h)
    next h => exact .test (.responderBreaks (by simpa using h))
  | get =>
    obtain rfl := Instr.act.inj hc
    obtain ⟨rfl, rfl⟩ := Prod.mk.inj (Option.some.inj hd)
    exact .getRq
  | stamp =>
    obtain ⟨n, hn, rfl, rfl⟩ := onNode_cases rfl hc hd
    exact .stamp hn _ _ _ (.inr (.inr ⟨rfl, rfl⟩))
  | send =>
    obtain ⟨n, hn, rfl, rfl⟩ := onNode_cases rfl hc hd
    exact .send hn
  | free =>
    obtain ⟨n, hn, rfl, rfl⟩ := onNode_cases rfl hc hd
    exact .free hn
  | logResponder => exact effect_of_log .responder rfl hc hd
  | logJob => exact effect_of_log .responderJob rfl hc hd
  | logProcessor => exact effect_of_log .responderProcessor rfl hc hd
  | lock | wait | wake | unlock | leave | done => simp at hc

theorem effect_of_stop {p : StopPc} (hc : code (.stop p) = .act f)
    (hd : f t choice d = some (d', q)) : Effect t choice d (.stop p) q d' := by
  cases p with
  | clear =>
    obtain rfl := Instr.act.inj hc
    obtain ⟨rfl, rfl⟩ := Prod.mk.inj (Option.some.inj hd)
    exact .clear
  | clearRq =>
    obtain rfl := Instr.act.inj hc
    obtain ⟨rfl, rfl⟩ := Prod.mk.inj (Option.some.inj hd)
    exact .clearRq
  | lock | unlock | broadcast | lockRq | unlockRq | broadcastRq | done => simp at hc

theorem effect_of_act (hc : code p = .act f) (hd : f t choice d = some (d', q)) :
    Effect t choice d p q d' := by
  cases p with
  | acceptor p => exact effect_of_acceptor hc hd
  | processor p => exact effect_of_processor hc hd
  | responder p => exact effect_of_responder hc hd
  | stop p => exact effect_of_stop hc hd

end Inversion

theorem step_effect {s s' : State τ} {t : τ} {success : Bool} {woken : Finset τ}
    (h : s.step code (.run t success woken) = some s') :
    ∃ next, s'.pc = Function.update s.pc t next ∧
      ((code (s.pc t) : Op τ).next? = some next ∧ s'.data = s.data ∨
        Effect t success s.data (s.pc t) next s'.data) := by
  obtain ⟨-, next, hpc, hsync | ⟨f, hf, hd, -⟩⟩ := step_run h
  · exact ⟨next, hpc, .inl hsync⟩
  · exact ⟨next, hpc, .inr (effect_of_act hf hd)⟩

def Entry (p : Pc) : Prop :=
  p = .acceptor .lock ∨ p = .processor .lock ∨ p = .responder .lock ∨ p = .stop .lock

instance (p : Pc) : Decidable (Entry p) := inferInstanceAs (Decidable (_ ∨ _))

def startServer (pc : τ → Pc) : State τ := .start pc (initializeStructs τ)

abbrev go (t : τ) : Step τ := .run t true ∅

/-- An acceptor, a processor, a responder and the thread that stops the server. -/
abbrev oneOfEach (t : Fin 4) : Pc :=
  if t = 0 then .acceptor .lock
  else if t = 1 then .processor .lock
  else if t = 2 then .responder .lock
  else .stop .lock

end Workcrew

end TcpAndParallel
