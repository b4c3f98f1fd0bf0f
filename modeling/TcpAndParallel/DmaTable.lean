import TcpAndParallel.Runs
import TcpAndParallel.HoleTable
import Mathlib.Data.Finset.Insert
import Mathlib.Data.Fintype.Basic

namespace TcpAndParallel

section Slots

variable {n : ℕ} {α β : Type*}

/-- The items in the slots of a table that are in use. -/
def inSlots (used : α → Bool) (item : α → β) (t : Fin n → α) : Multiset β :=
  (Finset.univ.filter fun i => used (t i) = true).val.map fun i => item (t i)

variable {used : α → Bool} {item : α → β} {t : Fin n → α} {i : Fin n} {a : α}

theorem mem_inSlots {b : β} : b ∈ inSlots used item t ↔ ∃ i, used (t i) = true ∧ item (t i) = b := by
  simp [inSlots]

theorem card_inSlots_lt (h : used (t i) = false) : (inSlots used item t).card < n := by
  rw [inSlots, Multiset.card_map]
  have hsub : Finset.univ.filter (fun j => used (t j) = true) ⊂ Finset.univ :=
    Finset.filter_ssubset.mpr ⟨i, by simp, by simp [h]⟩
  calc (Finset.univ.filter fun j => used (t j) = true).card < (Finset.univ : Finset (Fin n)).card :=
        Finset.card_lt_card hsub
    _ = n := Finset.card_fin n

theorem card_inSlots_of_full (h : ∀ i, used (t i) = true) : (inSlots used item t).card = n := by
  have hall : Finset.univ.filter (fun j => used (t j) = true) = Finset.univ :=
    Finset.filter_true_of_mem fun j _ => h j
  rw [inSlots, Multiset.card_map, hall]
  exact Finset.card_fin n

theorem map_update_of_notMem {s : Finset (Fin n)} (h : i ∉ s) :
    s.val.map (fun j => item (Function.update t i a j)) = s.val.map fun j => item (t j) :=
  Multiset.map_congr rfl fun j hj => by
    have hne : j ≠ i := fun he => h (he ▸ hj)
    rw [Function.update_of_ne hne]

theorem inSlots_fill (item : α → β) (free : used (t i) = false) (taken : used a = true) :
    inSlots used item (Function.update t i a) = item a ::ₘ inSlots used item t := by
  have hnot : i ∉ Finset.univ.filter fun j => used (t j) = true := by simp [free]
  have hslots : Finset.univ.filter (fun j => used (Function.update t i a j) = true) =
      insert i (Finset.univ.filter fun j => used (t j) = true) := by
    ext j
    by_cases hj : j = i
    · subst hj
      simp [taken]
    · simp [hj]
  rw [inSlots, hslots, Finset.insert_val_of_notMem hnot, Multiset.map_cons, Function.update_self,
    map_update_of_notMem hnot]
  rfl

theorem inSlots_clear (item : α → β) (taken : used (t i) = true) (free : used a = false) :
    inSlots used item t = item (t i) ::ₘ inSlots used item (Function.update t i a) := by
  have hback : Function.update (Function.update t i a) i (t i) = t := by simp
  have hfree : used (Function.update t i a i) = false := by simpa using free
  have hfill := inSlots_fill item hfree taken
  rwa [hback] at hfill

end Slots

namespace DmaTable

def nrDma : Nat := 16

/-- `struct dmatab`, with the bits of `dt_flags`. -/
structure Dmatab where
  inUse : Bool
  releaseDma : Bool
  releaseSeg : Bool
  proc : Int
  base : UInt32
  size : UInt32
  segBase : UInt32
  segSize : UInt32
  deriving DecidableEq, Repr

def zeroed : Dmatab := ⟨false, false, false, 0, 0, 0, 0, 0⟩

/-- The fields of a request: the endpoint, where the region starts and its size. -/
structure Message where
  ep : Int
  start : UInt32
  size : UInt32
  deriving DecidableEq, Repr

inductive Call
  | addDma (msg : Message)
  | delDma (msg : Message)
  | getDma
  deriving DecidableEq, Repr

inductive Reply
  | ok
  | einval
  | esrch
  | eagain
  | dma (region : Message)
  deriving DecidableEq, Repr

/-- `μ` is the memory that `free_mem` works on, and `hasDma` the flag `VMF_HAS_DMA` of the processes. -/
structure State (μ : Type*) where
  dmatab : Fin nrDma → Dmatab
  hasDma : Nat → Bool
  memory : μ

/-- What is called outside of these functions. -/
structure Kernel (μ : Type*) where
  isOkEndpt : Int → Option Nat
  freeMem : UInt32 → UInt32 → μ → Except Fault μ

variable {μ : Type*}

def Dmatab.region (d : Dmatab) : Message := ⟨d.proc, d.base, d.size⟩

def findSlot (p : Fin nrDma → Bool) : Option (Fin nrDma) := (List.finRange nrDma).find? p

def doAddDma (k : Kernel μ) (msg : Message) (s : State μ) : Except Fault (Reply × State μ) :=
  match findSlot fun i => !(s.dmatab i).inUse with
  | none => .error .tableFull
  | some i =>
    match k.isOkEndpt msg.ep with
    | none => .ok (.einval, s)
    | some p =>
      .ok (.ok, { s with
        hasDma := Function.update s.hasDma p true
        dmatab := Function.update s.dmatab i { s.dmatab i with
          inUse := true, releaseDma := false, releaseSeg := false
          proc := msg.ep, base := msg.start, size := msg.size } })

/-- The search for another segment compares the process of the entry `i` itself. -/
def lastSegment (i : Fin nrDma) (target : Int) (s : State μ) : Bool :=
  (findSlot fun j => j ≠ i && (s.dmatab j).inUse && (s.dmatab j).releaseSeg &&
    (s.dmatab i).proc = target).isNone

def doDelDma (k : Kernel μ) (msg : Message) (s : State μ) : Except Fault (Reply × State μ) :=
  match findSlot fun i => (s.dmatab i).inUse && (s.dmatab i).region = msg with
  | none => .ok (.esrch, s)
  | some i =>
    (if (s.dmatab i).releaseSeg && lastSegment i msg.ep s then
      k.freeMem (s.dmatab i).segBase (s.dmatab i).segSize s.memory else .ok s.memory).map fun memory =>
        (.ok, { s with
          memory := memory
          dmatab := Function.update s.dmatab i { s.dmatab i with inUse := false } })

def doGetDma (s : State μ) : Reply × State μ :=
  match findSlot fun i => (s.dmatab i).inUse && (s.dmatab i).releaseDma with
  | some i => (.dma (s.dmatab i).region, s)
  | none => (.eagain, s)

def answer (k : Kernel μ) (s : State μ) : Call → Except Fault (Reply × State μ)
  | .addDma msg => doAddDma k msg s
  | .delDma msg => doDelDma k msg s
  | .getDma => .ok (doGetDma s)

def step (k : Kernel μ) (s : State μ) (c : Call) : Except Fault (State μ) :=
  (answer k s c).map Prod.snd

def start (memory : μ) : State μ := ⟨fun _ => zeroed, fun _ => false, memory⟩

def regions (s : State μ) : Multiset Message := inSlots Dmatab.inUse Dmatab.region s.dmatab

/-- What the table is for: a bag of regions of which each request names one. -/
inductive Bag (k : Kernel μ) : Multiset Message → Call → Reply → Multiset Message → Prop
  | added {bag : Multiset Message} {msg : Message} (known : k.isOkEndpt msg.ep ≠ none) :
      Bag k bag (.addDma msg) .ok (msg ::ₘ bag)
  | unknown {bag : Multiset Message} {msg : Message} (unknown : k.isOkEndpt msg.ep = none) :
      Bag k bag (.addDma msg) .einval bag
  | deleted {bag : Multiset Message} {msg : Message} (held : msg ∈ bag) :
      Bag k bag (.delDma msg) .ok (bag.erase msg)
  | missing {bag : Multiset Message} {msg : Message} (missing : msg ∉ bag) :
      Bag k bag (.delDma msg) .esrch bag
  | nothing {bag : Multiset Message} : Bag k bag .getDma .eagain bag

def HasRoom (s : State μ) : Call → Prop
  | .addDma _ => (regions s).card < nrDma
  | .delDma _ => True
  | .getDma => True

instance (s : State μ) : DecidablePred (HasRoom s)
  | .addDma _ => inferInstanceAs (Decidable (_ < _))
  | .delDma _ => inferInstanceAs (Decidable True)
  | .getDma => inferInstanceAs (Decidable True)

/-- Nothing in the table is ever marked for release. -/
def Unmarked (s : State μ) : Prop := ∀ i, (s.dmatab i).releaseDma = false ∧ (s.dmatab i).releaseSeg = false

section Calls

variable {k : Kernel μ} {s : State μ} {msg : Message}

theorem findSlot_none {p : Fin nrDma → Bool} (h : findSlot p = none) (i : Fin nrDma) : p i = false := by
  simpa using List.find?_eq_none.mp h i (List.mem_finRange i)

theorem findSlot_some {p : Fin nrDma → Bool} {i : Fin nrDma} (h : findSlot p = some i) : p i = true :=
  List.find?_some h

theorem Unmarked.update (h : Unmarked s) {d : Dmatab} (hd : d.releaseDma = false ∧ d.releaseSeg = false)
    (i : Fin nrDma) {f : Nat → Bool} {m : μ} : Unmarked (⟨Function.update s.dmatab i d, f, m⟩ : State μ) := by
  intro j
  by_cases hj : j = i
  · subst hj
    simpa using hd
  · simpa [hj] using h j

theorem addDma_served (k : Kernel μ) (msg : Message) (h : Unmarked s) (room : (regions s).card < nrDma) :
    ∃ reply s', answer k s (.addDma msg) = .ok (reply, s') ∧ Unmarked s' ∧
      Bag k (regions s) (.addDma msg) reply (regions s') ∧ s'.memory = s.memory := by
  cases hslot : findSlot fun i => !(s.dmatab i).inUse with
  | none =>
    have hfull : ∀ i, (s.dmatab i).inUse = true := fun i => by simpa using findSlot_none hslot i
    exact absurd (card_inSlots_of_full hfull) room.ne
  | some i =>
    have hfree : (s.dmatab i).inUse = false := by simpa using findSlot_some hslot
    cases hep : k.isOkEndpt msg.ep with
    | none =>
      refine ⟨.einval, s, ?_, h, .unknown hep, rfl⟩
      simp only [answer, doAddDma, hslot, hep]
    | some p =>
      refine ⟨.ok, _, by simp only [answer, doAddDma, hslot, hep]; rfl, h.update ⟨rfl, rfl⟩ i, ?_, rfl⟩
      rw [regions, regions, inSlots_fill _ hfree rfl]
      exact .added (by simp [hep])

theorem addDma_full (full : ¬(regions s).card < nrDma) : answer k s (.addDma msg) = .error .tableFull := by
  have hslot : findSlot (fun i => !(s.dmatab i).inUse) = none := by
    by_contra hne
    obtain ⟨i, hi⟩ := Option.ne_none_iff_exists'.mp hne
    exact full (card_inSlots_lt (by simpa using findSlot_some hi))
  rw [answer, doAddDma, hslot]

theorem delDma_served (k : Kernel μ) (msg : Message) (h : Unmarked s) :
    ∃ reply s', answer k s (.delDma msg) = .ok (reply, s') ∧ Unmarked s' ∧
      Bag k (regions s) (.delDma msg) reply (regions s') ∧ s'.memory = s.memory := by
  cases hslot : findSlot fun i => (s.dmatab i).inUse && (s.dmatab i).region = msg with
  | none =>
    refine ⟨.esrch, s, by simp only [answer, doDelDma, hslot], h, .missing fun hm => ?_, rfl⟩
    obtain ⟨i, hused, hregion⟩ := mem_inSlots.mp hm
    have hnot := findSlot_none hslot i
    simp [hused, hregion] at hnot
  | some i =>
    obtain ⟨hused, hregion⟩ : (s.dmatab i).inUse = true ∧ (s.dmatab i).region = msg := by
      simpa using findSlot_some hslot
    generalize hd : ({ s.dmatab i with inUse := false } : Dmatab) = d
    have hfree : d.inUse = false := by rw [← hd]
    have hmarks : d.releaseDma = false ∧ d.releaseSeg = false := by
      rw [← hd]
      exact h i
    refine ⟨.ok, ⟨Function.update s.dmatab i d, s.hasDma, s.memory⟩, ?_, h.update hmarks i, ?_, rfl⟩
    · simp only [answer, doDelDma, hslot, (h i).2, Bool.false_and, ← hd]
      rfl
    · have hclear := inSlots_clear Dmatab.region hused hfree
      rw [hregion] at hclear
      have hdel := Bag.deleted (k := k) (Multiset.mem_cons_self msg
        (inSlots Dmatab.inUse Dmatab.region (Function.update s.dmatab i d)))
      rw [Multiset.erase_cons_head, ← hclear] at hdel
      exact hdel

theorem getDma_served (h : Unmarked s) :
    answer k s .getDma = .ok (.eagain, s) := by
  have hslot : findSlot (fun i => (s.dmatab i).inUse && (s.dmatab i).releaseDma) = none := by
    by_contra hne
    obtain ⟨i, hi⟩ := Option.ne_none_iff_exists'.mp hne
    have hmark := findSlot_some hi
    simp [(h i).1] at hmark
  rw [answer, doGetDma, hslot]

/-- A call answers as the bag does, and no segment is ever freed. -/
def Served (k : Kernel μ) (s : State μ) (c : Call) (s' : State μ) : Prop :=
  ∃ reply, answer k s c = .ok (reply, s') ∧ Bag k (regions s) c reply (regions s') ∧ s'.memory = s.memory

theorem served (h : Unmarked s) {c : Call} (room : HasRoom s c) :
    ∃ s', step k s c = .ok s' ∧ Served k s c s' ∧ Unmarked s' := by
  cases c with
  | addDma msg =>
    obtain ⟨reply, s', he, hu, hbag, hmem⟩ := addDma_served k msg h room
    exact ⟨s', by rw [step, he]; rfl, ⟨reply, he, hbag, hmem⟩, hu⟩
  | delDma msg =>
    obtain ⟨reply, s', he, hu, hbag, hmem⟩ := delDma_served k msg h
    exact ⟨s', by rw [step, he]; rfl, ⟨reply, he, hbag, hmem⟩, hu⟩
  | getDma =>
    have he := getDma_served (k := k) h
    exact ⟨s, by rw [step, he]; rfl, ⟨.eagain, he, .nothing, rfl⟩, h⟩

end Calls

/-- In every run from the zeroed table the calls do what a bag of at most sixteen regions does, and
run into the panic exactly where one more is added. -/
theorem refines_bag (k : Kernel μ) (memory : μ) (cs : List Call) :
    Meets (step k) HasRoom (start memory) cs ↔ Follows (step k) (Served k) (start memory) cs := by
  have first : Unmarked (start memory) := fun _ => ⟨rfl, rfl⟩
  refine ⟨fun room => follows_of_meets (fun s c h hr => served h hr) first room, fun follows => ?_⟩
  generalize start memory = s at first follows
  induction cs generalizing s with
  | nil => trivial
  | cons c cs ih =>
    obtain ⟨s', he, ⟨reply, ha, -⟩, hrest⟩ := follows
    have room : HasRoom s c := by
      cases c with
      | addDma msg =>
        by_contra full
        simp [addDma_full full] at ha
      | delDma msg => trivial
      | getDma => trivial
    obtain ⟨t, ht, -, hu⟩ := served (k := k) first room
    obtain rfl : t = s' := by simpa [ht] using he
    refine ⟨room, fun u hu' => ?_⟩
    obtain rfl : t = u := by simpa [ht] using hu'
    exact ih t hu hrest

end DmaTable

end TcpAndParallel
