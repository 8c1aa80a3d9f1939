/-
# Kernel.InterruptRequests -- irq_handler and the interrupt controllers, over whole runs

`init_idt` programs the two controllers, and `irq_handler` sends the end of interrupt, to the
second controller too from vector 40 on, before it calls the function registered for the vector.
That function may switch threads and so turn interrupts on again long before it returns.

Here devices raise requests at any time, the processor acknowledges one whenever its interrupt
flag is set, and `irq_handler` makes its port writes one by one.  `entry` says which `int_no` the
gate of a vector hands to `irq_handler`; `Kernel.Dispatch` has what the gates of `init_idt` do
(`irqEntry`).  As long as that `int_no` is on the side of 40 that its line is on, no end of
interrupt goes astray: outside of the writes nothing is in service, so that the request of the
highest priority always comes through (`irqs_never_blocked`), and every request that was latched is
handled exactly once (`irqs_exactly_once`).
-/
import MiniKernel.Kernel.Dispatch
import MiniKernel.Theory.InterruptController
import MiniKernel.Theory.Transition

namespace MiniKernel.Kernel

open MiniKernel.Theory (Reaches Pair Controller)

set_option autoImplicit false

/-! ## The ports -/

/-- `outb`, as the controllers see it. -/
def picOutb (p : Pair) (port : BitVec 16) (v : BitVec 8) : Pair :=
  if port = 0x20 then { p with master := p.master.command v }
  else if port = 0x21 then { p with master := p.master.data v }
  else if port = 0xA0 then { p with slave := p.slave.command v }
  else if port = 0xA1 then { p with slave := p.slave.data v }
  else p

/-- The port writes of `init_idt`. -/
def initIdtOutb : List (BitVec 16 × BitVec 8) :=
  [(0x20, 0x11), (0xA0, 0x11), (0x21, 0x20), (0xA1, 0x28), (0x21, 0x04), (0xA1, 0x02),
    (0x21, 0x01), (0xA1, 0x01), (0x21, 0x0), (0xA1, 0x0)]

/-- The controllers after `init_idt`. -/
def initPics (p : Pair) : Pair := initIdtOutb.foldl (fun p write => picOutb p write.1 write.2) p

/-- The settings that `init_idt` makes. -/
def PicsSet (p : Pair) : Prop := p.master.Set 0x20 4 ∧ p.slave.Set 0x28 2

theorem initPics_set (p : Pair) : PicsSet (initPics p) :=
  ⟨⟨rfl, rfl,
    fun _ => by simp [initPics, initIdtOutb, picOutb, Controller.data, Controller.command], rfl⟩,
    rfl, rfl,
    fun _ => by simp [initPics, initIdtOutb, picOutb, Controller.data, Controller.command], rfl⟩

theorem initPics_isr (p : Pair) :
    (initPics p).master.isr = p.master.isr ∧ (initPics p).slave.isr = p.slave.isr := ⟨rfl, rfl⟩

theorem initPics_pending (p : Pair) (line : Nat) : (initPics p).pending line = false := by
  unfold Pair.pending
  split_ifs <;> rfl

namespace PicsSet

variable {p q : Pair} {line : Nat}

theorem wired (set : PicsSet p) : p.Wired := ⟨set.1.2.1, set.2.2.1⟩

theorem unmasked (set : PicsSet p) (line : Nat) : p.masked line = false := by
  unfold Pair.masked
  rw [set.1.2.2.1, set.1.2.2.1, set.2.2.2.1]
  split_ifs <;> rfl

/-- The lines have the vectors 32 to 47. -/
theorem vector_toNat (set : PicsSet p) (fits : line < 16) : (p.vector line).toNat = 32 + line := by
  unfold Pair.vector
  rw [set.1.1, set.2.1]
  split_ifs
  · rw [BitVec.toNat_add, BitVec.toNat_ofNat]
    simp
    omega
  · rw [BitVec.toNat_add, BitVec.toNat_ofNat]
    simp
    omega

theorem raise (set : PicsSet p) (line : Nat) : PicsSet (p.raise line) := by
  unfold Pair.raise
  split_ifs
  · exact ⟨set.1, set.2⟩
  · exact ⟨set.1, set.2⟩

theorem next (set : PicsSet p) (served : p.next = some (line, q)) : PicsSet q := by
  rcases Pair.next_cases set.wired served with ⟨-, -, -, rfl⟩ | ⟨k, -, -, -, rfl⟩
  · exact ⟨set.1, set.2⟩
  · exact ⟨set.1, set.2⟩

end PicsSet

/-! ## The system -/

section System

variable {H : Type}

/-- The controllers, the interrupt flag, and the call of `irq_handler` that is under way: the line
it was entered for, the port writes it still has to make, and the function it then calls. -/
structure Irqs (H : Type) where
  pics : Pair
  interruptFlag : Bool
  call : Option (Nat × Handled H)
  /-- The requests latched so far. -/
  latched : List Nat
  /-- The calls of `irq_handler` that made their writes, with the function called then. -/
  handled : List (Nat × Option H)

/-- What can happen next. -/
inductive IrqEvent where
  /-- A device raises its line. -/
  | raise (line : Nat)
  /-- The processor acknowledges an interrupt and enters `irq_handler`. -/
  | acknowledge
  /-- `irq_handler` makes its next port write. -/
  | outb
  /-- `irq_handler` calls the function registered for the vector. -/
  | callHandler
  /-- Code outside of the port writes, that function with all it switches to included, sets or
  clears the interrupt flag. -/
  | setFlag (flag : Bool)

variable (entry : Nat → Option Word32) (handlers : Nat → Option H)

/-- The acknowledge cycle, and the way through the gate into `irq_handler`. -/
def Irqs.acknowledge (s : Irqs H) : Option (Irqs H) :=
  if s.interruptFlag then
    s.pics.next.bind fun (line, pics) =>
      (entry (s.pics.vector line).toNat).bind fun intNo =>
        (irqHandler handlers intNo).toOption.map fun call =>
          { s with pics, interruptFlag := false, call := some (line, call) }
  else none

/-- One step. -/
def Irqs.next (s : Irqs H) : IrqEvent → Option (Irqs H)
  | .raise line =>
      some { s with
        pics := s.pics.raise line
        latched := if s.pics.pending line then s.latched else s.latched ++ [line] }
  | .acknowledge => s.acknowledge entry handlers
  | .outb =>
      match s.call with
      | some (line, ⟨write :: writes, f⟩) =>
          some { s with
            pics := picOutb s.pics write.1 write.2
            call := some (line, ⟨writes, f⟩) }
      | _ => none
  | .callHandler =>
      match s.call with
      | some (line, ⟨[], f⟩) => some { s with call := none, handled := s.handled ++ [(line, f)] }
      | _ => none
  | .setFlag flag => if s.call.isNone then some { s with interruptFlag := flag } else none

/-- The kernel after `init_idt`, with interrupts off. -/
def Irqs.booted (p : Pair) : Irqs H := ⟨initPics p, false, none, [], []⟩

/-- Devices raise the lines in `lines` only. -/
def OnLines (lines : Nat → Prop) : Irqs H → IrqEvent → Prop
  | _, .raise line => lines line
  | _, _ => True

/-- Runs of the system with devices on `lines`. -/
def IrqRun (lines : Nat → Prop) (p : Pair) (s : Irqs H) : Prop :=
  Reaches (fun s e s' => Irqs.next entry handlers s e = some s') (OnLines lines) (.booted p) s

/-- The gates of the vectors of `lines` hand `irq_handler` an `int_no` on the right side of 40. -/
def EntersFor (lines : Nat → Prop) : Prop :=
  ∀ line, lines line → Pair.IsLine line ∧
    ∃ intNo, entry (32 + line) = some intNo ∧ (40 ≤ intNo.toNat ↔ 8 ≤ line)

/-- A run computed event by event. -/
theorem IrqRun.of_events {lines : Nat → Prop} {p : Pair} {events : List IrqEvent}
    {s s' : Irqs H} (on : ∀ line, IrqEvent.raise line ∈ events → lines line)
    (run : IrqRun entry handlers lines p s)
    (ran : events.foldlM (Irqs.next entry handlers) s = some s') :
    IrqRun entry handlers lines p s' := by
  refine Reaches.of_events (fun e mem s => ?_) run ran
  cases e with
  | raise line => exact on line mem
  | acknowledge => trivial
  | outb => trivial
  | callHandler => trivial
  | setFlag flag => trivial

/-! ## The invariant -/

/-- The controllers while `irq_handler` has `writes` still to make. -/
def Owes (p : Pair) (writes : List (BitVec 16 × BitVec 8)) : Prop :=
  (writes = [] ∧ p.master.Idle ∧ p.slave.Idle) ∨
  (writes = [(0x20, 0x20)] ∧ (∃ n, n < 8 ∧ p.master.Serves n) ∧ p.slave.Idle) ∨
  (writes = [(0xA0, 0x20), (0x20, 0x20)] ∧ (∃ n, n < 8 ∧ p.master.Serves n) ∧
    ∃ n, n < 8 ∧ p.slave.Serves n)

/-- `f` is registered for the `int_no` that the line's gate hands over. -/
def FunctionOf (line : Nat) (f : Option H) : Prop :=
  ∃ intNo, entry (32 + line) = some intNo ∧ f = handlers intNo.toNat

/-- What every run keeps. -/
structure Irqs.Inv (lines : Nat → Prop) (s : Irqs H) : Prop where
  set : PicsSet s.pics
  idle : s.call = none → s.pics.master.Idle ∧ s.pics.slave.Idle
  owes : ∀ line call, s.call = some (line, call) → s.interruptFlag = false ∧
    Owes s.pics call.outb ∧ FunctionOf entry handlers line call.ran
  onLines : ∀ line, Pair.IsLine line → s.pics.pending line = true → lines line
  handled : ∀ h ∈ s.handled, FunctionOf entry handlers h.1 h.2
  once : ∀ line, Pair.IsLine line → s.latched.count line =
    (s.handled.map Prod.fst).count line + (if s.pics.pending line then 1 else 0) +
      if s.call.map Prod.fst = some line then 1 else 0

section Writes

variable {p q : Pair} {line : Nat}

theorem picOutb_master (p : Pair) :
    picOutb p 0x20 0x20 = { p with master := p.master.eoi } := rfl

theorem picOutb_slave (p : Pair) : picOutb p 0xA0 0x20 = { p with slave := p.slave.eoi } := rfl

/-- Each write ends the service that it is for. -/
theorem Owes.outb {write : BitVec 16 × BitVec 8} {writes : List (BitVec 16 × BitVec 8)}
    (owes : Owes p (write :: writes)) :
    Owes (picOutb p write.1 write.2) writes ∧
      ∃ master slave, picOutb p write.1 write.2 = ⟨master, slave⟩ ∧
        (master = p.master ∨ master = p.master.eoi) ∧ (slave = p.slave ∨ slave = p.slave.eoi) := by
  rcases owes with ⟨none, -, -⟩ | ⟨one, ⟨n, line, serves⟩, idle⟩ |
    ⟨two, ⟨n, line, serves⟩, ⟨k, inner, behind⟩⟩
  · cases none
  · cases one
    rw [picOutb_master]
    exact ⟨.inl ⟨rfl, Controller.eoi_idle serves line, idle⟩, _, _, rfl, .inr rfl, .inl rfl⟩
  · cases two
    rw [picOutb_slave]
    exact ⟨.inr (.inl ⟨rfl, ⟨n, line, serves⟩, Controller.eoi_idle behind inner⟩), _, _, rfl,
      .inl rfl, .inr rfl⟩

theorem irqHandler_eq (intNo : Word32) : irqHandler handlers intNo =
    .ok ⟨(if 40 ≤ intNo.toNat then [(0xA0, 0x20)] else []) ++ [(0x20, 0x20)],
      handlers intNo.toNat⟩ := by
  cases registered : handlers intNo.toNat with
  | none => simp only [irqHandler, registered]
  | some f => simp only [irqHandler, registered]

/-- `irq_handler` owes the writes for the line that was acknowledged. -/
theorem Owes.entered (set : PicsSet p) (master : p.master.Idle) (slave : p.slave.Idle)
    (served : p.next = some (line, q)) {intNo : Word32} (side : 40 ≤ intNo.toNat ↔ 8 ≤ line)
    {call : Handled H} (entered : irqHandler handlers intNo = .ok call) :
    Owes q call.outb ∧ call.ran = handlers intNo.toNat := by
  rw [irqHandler_eq] at entered
  cases entered
  refine ⟨?_, rfl⟩
  dsimp only
  rcases Pair.next_cases set.wired served with ⟨low, -, -, rfl⟩ | ⟨k, fits, rfl, -, rfl⟩
  · rw [if_neg (by omega)]
    exact .inr (.inl ⟨rfl, ⟨line, low, Controller.accept_serves master line⟩, slave⟩)
  · rw [if_pos (by omega)]
    exact .inr (.inr ⟨rfl, ⟨2, by decide, Controller.accept_serves master 2⟩,
      k, fits, Controller.accept_serves slave k⟩)

end Writes

theorem Irqs.acknowledge_some {entry handlers} {s s' : Irqs H}
    (taken : s.acknowledge entry handlers = some s') :
    s.interruptFlag = true ∧ ∃ line pics intNo call, s.pics.next = some (line, pics) ∧
      entry (s.pics.vector line).toNat = some intNo ∧ irqHandler handlers intNo = .ok call ∧
      { s with pics, interruptFlag := false, call := some (line, call) } = s' := by
  unfold Irqs.acknowledge at taken
  split_ifs at taken with flag
  obtain ⟨⟨line, pics⟩, served, taken⟩ := Option.bind_eq_some_iff.mp taken
  obtain ⟨intNo, handed, taken⟩ := Option.bind_eq_some_iff.mp taken
  obtain ⟨call, entered, eq⟩ := Option.map_eq_some_iff.mp taken
  refine ⟨flag, line, pics, intNo, call, served, handed, ?_, eq⟩
  cases result : irqHandler handlers intNo with
  | error e =>
      rw [result] at entered
      cases entered
  | ok h =>
      rw [result] at entered
      rw [Option.some.inj entered]

theorem Irqs.outb_some {entry handlers} {s s' : Irqs H}
    (taken : s.next entry handlers .outb = some s') :
    ∃ line write writes f, s.call = some (line, ⟨write :: writes, f⟩) ∧
      { s with pics := picOutb s.pics write.1 write.2, call := some (line, ⟨writes, f⟩) } = s' := by
  simp only [Irqs.next] at taken
  split at taken
  · rename_i under
    exact ⟨_, _, _, _, under, Option.some.inj taken⟩
  · cases taken

theorem Irqs.callHandler_some {entry handlers} {s s' : Irqs H}
    (taken : s.next entry handlers .callHandler = some s') :
    ∃ line f, s.call = some (line, ⟨[], f⟩) ∧
      { s with call := none, handled := s.handled ++ [(line, f)] } = s' := by
  simp only [Irqs.next] at taken
  split at taken
  · rename_i under
    exact ⟨_, _, under, Option.some.inj taken⟩
  · cases taken

theorem Irqs.setFlag_some {entry handlers} {s s' : Irqs H} {flag : Bool}
    (taken : s.next entry handlers (.setFlag flag) = some s') :
    s.call = none ∧ { s with interruptFlag := flag } = s' := by
  simp only [Irqs.next] at taken
  split_ifs at taken with free
  exact ⟨Option.isNone_iff_eq_none.mp free, Option.some.inj taken⟩

namespace Irqs.Inv

variable {entry handlers} {lines : Nat → Prop} {s : Irqs H}

theorem raise (inv : s.Inv entry handlers lines) {raised : Nat} (on : lines raised) :
    Irqs.Inv entry handlers lines { s with
      pics := s.pics.raise raised
      latched := if s.pics.pending raised then s.latched else s.latched ++ [raised] } := by
  have isr : (s.pics.raise raised).master.isr = s.pics.master.isr ∧
      (s.pics.raise raised).slave.isr = s.pics.slave.isr := by
    unfold Pair.raise
    split_ifs <;> exact ⟨rfl, rfl⟩
  refine ⟨inv.set.raise raised, ?_, ?_, ?_, inv.handled, ?_⟩
  · intro none
    unfold Controller.Idle
    rw [isr.1, isr.2]
    exact inv.idle none
  · intro line call under
    obtain ⟨off, owes, runs⟩ := inv.owes line call under
    refine ⟨off, ?_, runs⟩
    unfold Owes Controller.Idle Controller.Serves
    rw [isr.1, isr.2]
    exact owes
  · intro line isLine pending
    rw [Pair.pending_raise] at pending
    by_cases same : line = raised
    · rw [same]
      exact on
    · rw [if_neg same] at pending
      exact inv.onLines line isLine pending
  · intro line isLine
    have before := inv.once line isLine
    dsimp only
    rw [Pair.pending_raise]
    by_cases same : line = raised
    · subst same
      rw [if_pos rfl, if_pos rfl]
      by_cases already : s.pics.pending line = true
      · rw [if_pos already] at before ⊢
        exact before
      · rw [if_neg already] at before ⊢
        rw [List.count_append, List.count_singleton_self, before]
        omega
    · rw [if_neg same]
      by_cases already : s.pics.pending raised = true
      · rw [if_pos already]
        exact before
      · rw [if_neg already, List.count_append, List.count_cons_of_ne (Ne.symm same), before]
        rfl

theorem acknowledge (inv : s.Inv entry handlers lines) (enters : EntersFor entry lines)
    (on : s.interruptFlag = true) {line : Nat} {pics : Pair}
    (served : s.pics.next = some (line, pics)) {intNo : Word32}
    (handed : entry (s.pics.vector line).toNat = some intNo) {call : Handled H}
    (entered : irqHandler handlers intNo = .ok call) :
    Irqs.Inv entry handlers lines
      { s with pics, interruptFlag := false, call := some (line, call) } := by
  have free : s.call = none := by
    cases under : s.call with
    | none => rfl
    | some call =>
        have off := (inv.owes call.1 call.2 under).1
        rw [on] at off
        cases off
  obtain ⟨master, slave⟩ := inv.idle free
  have isLine := Pair.next_isLine inv.set.wired served
  have pending := Pair.next_pending inv.set.wired served
  obtain ⟨-, n, gate, side⟩ := enters line (inv.onLines line isLine pending)
  rw [inv.set.vector_toNat isLine.1] at handed
  obtain rfl := Option.some.inj (gate.symm.trans handed)
  obtain ⟨owes, runs⟩ := Owes.entered handlers inv.set master slave served side entered
  refine ⟨inv.set.next served, fun none => ?_, ?_, ?_, inv.handled, ?_⟩
  · cases none
  · intro other call' same
    cases same
    exact ⟨rfl, owes, n, handed, runs⟩
  · intro other isOther still
    refine inv.onLines other isOther ?_
    rw [Pair.pending_next inv.set.wired served isOther] at still
    split_ifs at still with same
    · exact still
  · intro other isOther
    have before := inv.once other isOther
    dsimp only
    rw [Pair.pending_next inv.set.wired served isOther]
    rw [free] at before
    by_cases same : other = line
    · subst same
      rw [pending] at before
      simpa using before
    · rw [if_neg same]
      simpa [Ne.symm same] using before

theorem outb (inv : s.Inv entry handlers lines) {line : Nat} {write : BitVec 16 × BitVec 8}
    {writes : List (BitVec 16 × BitVec 8)} {f : Option H}
    (under : s.call = some (line, ⟨write :: writes, f⟩)) :
    Irqs.Inv entry handlers lines { s with
      pics := picOutb s.pics write.1 write.2
      call := some (line, ⟨writes, f⟩) } := by
  obtain ⟨off, owes, runs⟩ := inv.owes line _ under
  obtain ⟨owes, master, slave, eq, masters, slaves⟩ := owes.outb
  have set : PicsSet (picOutb s.pics write.1 write.2) := by
    rw [eq]
    refine ⟨?_, ?_⟩
    · rcases masters with same | ended
      · rw [same]
        exact inv.set.1
      · rw [ended]
        exact inv.set.1.eoi
    · rcases slaves with same | ended
      · rw [same]
        exact inv.set.2
      · rw [ended]
        exact inv.set.2.eoi
  have pending : ∀ line, (picOutb s.pics write.1 write.2).pending line = s.pics.pending line := by
    intro line
    have first : master.irr = s.pics.master.irr := by
      rcases masters with same | ended
      · rw [same]
      · rw [ended, Controller.eoi_irr]
    have second : slave.irr = s.pics.slave.irr := by
      rcases slaves with same | ended
      · rw [same]
      · rw [ended, Controller.eoi_irr]
    unfold Pair.pending
    rw [eq, first, second]
  refine ⟨set, fun none => ?_, ?_, ?_, inv.handled, ?_⟩
  · cases none
  · intro other call same
    cases same
    exact ⟨off, owes, runs⟩
  · intro other isOther still
    exact inv.onLines other isOther (pending other ▸ still)
  · intro other isOther
    have before := inv.once other isOther
    dsimp only
    rw [pending other]
    rw [under] at before
    exact before

theorem callHandler (inv : s.Inv entry handlers lines) {line : Nat} {f : Option H}
    (under : s.call = some (line, ⟨[], f⟩)) :
    Irqs.Inv entry handlers lines
      { s with call := none, handled := s.handled ++ [(line, f)] } := by
  obtain ⟨off, owes, runs⟩ := inv.owes line _ under
  have idle : s.pics.master.Idle ∧ s.pics.slave.Idle := by
    rcases owes with ⟨-, both⟩ | ⟨one, -⟩ | ⟨two, -⟩
    · exact both
    · cases one
    · cases two
  refine ⟨inv.set, fun _ => idle, fun other call some => ?_, inv.onLines, ?_, ?_⟩
  · cases some
  · intro h mem
    rcases List.mem_append.mp mem with before | last
    · exact inv.handled h before
    · rw [List.mem_singleton.mp last]
      exact runs
  · intro other isOther
    have before := inv.once other isOther
    rw [under] at before
    dsimp only
    rw [List.map_append, List.count_append, before]
    by_cases same : other = line
    · subst same
      simp
      omega
    · simp [Ne.symm same]

theorem setFlag (inv : s.Inv entry handlers lines) (free : s.call = none) (flag : Bool) :
    Irqs.Inv entry handlers lines { s with interruptFlag := flag } := by
  refine ⟨inv.set, inv.idle, fun line call some => ?_, inv.onLines, inv.handled, inv.once⟩
  rw [free] at some
  cases some

/-- What one step preserves. -/
theorem step (inv : s.Inv entry handlers lines) (enters : EntersFor entry lines) {e : IrqEvent}
    (on : OnLines lines s e) {s' : Irqs H} (taken : s.next entry handlers e = some s') :
    s'.Inv entry handlers lines := by
  cases e with
  | raise line =>
      cases taken
      exact inv.raise on
  | acknowledge =>
      obtain ⟨flag, line, pics, intNo, call, served, handed, entered, rfl⟩ :=
        Irqs.acknowledge_some taken
      exact inv.acknowledge enters flag served handed entered
  | outb =>
      obtain ⟨line, write, writes, f, under, rfl⟩ := Irqs.outb_some taken
      exact inv.outb under
  | callHandler =>
      obtain ⟨line, f, under, rfl⟩ := Irqs.callHandler_some taken
      exact inv.callHandler under
  | setFlag flag =>
      obtain ⟨free, rfl⟩ := Irqs.setFlag_some taken
      exact inv.setFlag free flag

/-- What holds after `init_idt`. -/
theorem booted {p : Pair} (master : p.master.Idle) (slave : p.slave.Idle) :
    Irqs.Inv (H := H) entry handlers lines (.booted p) := by
  have isr := initPics_isr p
  refine ⟨initPics_set p, fun _ => ?_, fun line call some => ?_, fun line _ pending => ?_, ?_,
    fun line _ => ?_⟩
  · unfold Controller.Idle Irqs.booted
    rw [isr.1, isr.2]
    exact ⟨master, slave⟩
  · cases some
  · rw [Irqs.booted, initPics_pending] at pending
    cases pending
  · intro h mem
    cases mem
  · unfold Irqs.booted
    dsimp only
    rw [initPics_pending]
    rfl

/-- What every run preserves. -/
theorem run {p : Pair} (enters : EntersFor entry lines) (master : p.master.Idle)
    (slave : p.slave.Idle) (reached : IrqRun entry handlers lines p s) :
    s.Inv entry handlers lines :=
  reached.invariant (booted master slave) fun _ _ _ inv on taken => inv.step enters on taken

end Irqs.Inv

/-! ## The results -/

variable {lines : Nat → Prop} {p : Pair} {s : Irqs H}

/-- **No interrupt is blocked.**  `irq_handler` has at most two writes to make with interrupts off;
from then on, whatever the function it calls does and wherever that switches to, the processor gets
the pending request of the highest priority under its vector as soon as it turns interrupts on. -/
theorem irqs_never_blocked (enters : EntersFor entry lines) (master : p.master.Idle)
    (slave : p.slave.Idle) (reached : IrqRun entry handlers lines p s) :
    (∀ line call, s.call = some (line, call) →
      s.interruptFlag = false ∧ call.outb.length ≤ 2) ∧
    (s.call = none → s.interruptFlag = true → ∀ line, Pair.IsLine line →
      s.pics.pending line = true → ∃ first call s',
        s.next entry handlers .acknowledge = some s' ∧ s'.call = some (first, call) ∧
          s.pics.pending first = true ∧ (s.pics.vector first).toNat = 32 + first ∧
          Pair.priority first ≤ Pair.priority line) := by
  have inv := Irqs.Inv.run enters master slave reached
  refine ⟨fun line call under => ?_, fun free on line isLine pending => ?_⟩
  · obtain ⟨off, owes, -⟩ := inv.owes line call under
    refine ⟨off, ?_⟩
    rcases owes with ⟨none, -⟩ | ⟨one, -⟩ | ⟨two, -⟩
    · rw [none]
      exact Nat.zero_le 2
    · rw [one]
      exact Nat.le_succ 1
    · rw [two]
      exact Nat.le_refl 2
  · obtain ⟨idle, idle'⟩ := inv.idle free
    obtain ⟨first, pics, served, least⟩ :=
      Pair.next_of_idle inv.set.wired idle idle' isLine pending (inv.set.unmasked line)
    have isFirst := Pair.next_isLine inv.set.wired served
    have waits := Pair.next_pending inv.set.wired served
    have vector := inv.set.vector_toNat isFirst.1
    obtain ⟨-, intNo, gate, -⟩ := enters first (inv.onLines first isFirst waits)
    obtain ⟨call, entered⟩ : ∃ call, irqHandler handlers intNo = .ok call :=
      ⟨_, irqHandler_eq handlers intNo⟩
    refine ⟨first, call, { s with pics, interruptFlag := false, call := some (first, call) }, ?_,
      rfl, waits, vector, least⟩
    show s.acknowledge entry handlers = _
    rw [Irqs.acknowledge, if_pos on, served, Option.bind_some]
    dsimp only
    rw [vector, gate, Option.bind_some, entered]
    rfl

/-- **Every request is handled once.**  The requests latched on a line are the calls that
`irq_handler` has finished for it, the one under way and the one that still waits; and each call
ran the function registered for the `int_no` it was given. -/
theorem irqs_exactly_once (enters : EntersFor entry lines) (master : p.master.Idle)
    (slave : p.slave.Idle) (reached : IrqRun entry handlers lines p s) :
    (∀ line, Pair.IsLine line → s.latched.count line = (s.handled.map Prod.fst).count line +
      (if s.pics.pending line then 1 else 0) + if s.call.map Prod.fst = some line then 1 else 0) ∧
    ∀ line f, (line, f) ∈ s.handled →
      ∃ intNo, entry (32 + line) = some intNo ∧ f = handlers intNo.toNat := by
  have inv := Irqs.Inv.run enters master slave reached
  exact ⟨inv.once, fun line f mem => inv.handled (line, f) mem⟩

end System

/-! ## The gates of `init_idt` -/

/-- The `int_no` that an interrupt through the gate of `v` hands to `irq_handler`. -/
def irqEntry (l : Layout) (c : Cpu) (v : Nat) : Option Word32 :=
  (deliver l v 0 c).bind fun (label, called, _) =>
    if label = .irqHandler then some (Registers.at called.mem called.top).intNo else none

/-- The timer's line comes through in every layout. -/
theorem irqEntry_timer (l : Layout) (c : Cpu) : irqEntry l c 32 = some 32 := by
  obtain ⟨called, run, intNo⟩ := stub_int_no 32 (enterGate 32 0 c)
  have enters := (enters_iff l (v := 32) (by decide)).mpr (.inr rfl)
  rw [irqEntry, deliver, enters, l.codeAt_stubAddress (by decide), Option.bind_some, run,
    Option.bind_some]
  dsimp only
  rw [intNo]
  rfl

/-- So does the keyboard's, as vector 32, in a layout where it points behind the `cli` of `irq0`. -/
theorem irqEntry_keyboard (c : Cpu) : irqEntry nasmLayout c 33 = some 32 := by
  have code : nasmLayout.codeAt
      (initIdt (BitVec.ofNat 32 nasmLayout.isr0) (BitVec.ofNat 32 nasmLayout.irq0) 33).base.toNat =
      some ((stub 32).drop 1 ++ commonStub .irqHandler) := by decide +kernel
  have quiet : ∀ l, Instr.call l ∉ (stub 32).drop 1 :=
    fun l mem => call_notMem_stub 32 l (List.mem_of_mem_drop mem)
  obtain ⟨called, run, -, -, regs⟩ :=
    commonStub_call .irqHandler (Cpu.execBlock ((stub 32).drop 1) (enterGate 33 0 c))
  rw [irqEntry, deliver, code, Option.bind_some, Cpu.runToCall_append quiet, run, Option.bind_some]
  dsimp only
  rw [if_pos rfl, regs]
  simp [stub, irqStub, Cpu.execBlock, Cpu.exec]

/-- The lines of the timer and the keyboard. -/
def OnBoard (line : Nat) : Prop := line = 0 ∨ line = 1

theorem onBoard_enters (c : Cpu) : EntersFor (irqEntry nasmLayout c) OnBoard := by
  rintro line (rfl | rfl)
  · exact ⟨by decide, 32, irqEntry_timer nasmLayout c, by decide⟩
  · exact ⟨by decide, 32, irqEntry_keyboard c, by decide⟩

/-- A controller after reset. -/
def resetPic : Controller :=
  { irr := fun _ => false, isr := fun _ => false, imr := fun _ => false
    offset := 0, cascade := 0, mode := 0, single := false, wordFour := false, expects := none }

/-- A key is pressed; the timer ticks while `irq_handler` serves the keyboard's line. -/
def keyThenTick : List IrqEvent :=
  [.raise 1, .setFlag true, .acknowledge, .raise 0, .outb, .callHandler, .setFlag true]

/-- The timer's function, and no other. -/
def timerOnly : Nat → Option String := handlersAfter [(32, some "timer_callback")]

theorem keyThenTick_run :
    ∃ s, keyThenTick.foldlM (Irqs.next (irqEntry nasmLayout kernelCpu) timerOnly)
        (.booted ⟨resetPic, resetPic⟩) = some s ∧ s.call = none ∧ s.interruptFlag = true ∧
      s.pics.pending 0 = true ∧
      IrqRun (irqEntry nasmLayout kernelCpu) timerOnly OnBoard ⟨resetPic, resetPic⟩ s := by
  have on : ∀ line, IrqEvent.raise line ∈ keyThenTick → OnBoard line := by
    intro line mem
    simp only [keyThenTick, List.mem_cons, reduceCtorEq, List.not_mem_nil, or_false, false_or,
      IrqEvent.raise.injEq] at mem
    exact mem.symm
  exact ⟨_, rfl, rfl, rfl, rfl, IrqRun.of_events _ _ on .refl rfl⟩

/-- The tick is next. -/
theorem tick_after_key :
    ∃ s first call s', keyThenTick.foldlM (Irqs.next (irqEntry nasmLayout kernelCpu) timerOnly)
        (.booted ⟨resetPic, resetPic⟩) = some s ∧
      s.next (irqEntry nasmLayout kernelCpu) timerOnly .acknowledge = some s' ∧
      s'.call = some (first, call) ∧ Pair.priority first ≤ Pair.priority 0 := by
  obtain ⟨s, ran, free, on, pending, run⟩ := keyThenTick_run
  obtain ⟨first, call, s', taken, entered, -, -, least⟩ :=
    (irqs_never_blocked _ _ (onBoard_enters kernelCpu) (fun _ => rfl) (fun _ => rfl) run).2
      free on 0 (by decide) pending
  exact ⟨s, first, call, s', ran, taken, entered, least⟩

/-- The key's request was handled once, by the function of vector 32. -/
theorem key_handled_once :
    ∃ s, keyThenTick.foldlM (Irqs.next (irqEntry nasmLayout kernelCpu) timerOnly)
        (.booted ⟨resetPic, resetPic⟩) = some s ∧
      s.latched.count 1 = (s.handled.map Prod.fst).count 1 +
        (if s.pics.pending 1 then 1 else 0) + if s.call.map Prod.fst = some 1 then 1 else 0 := by
  obtain ⟨s, ran, -, -, -, run⟩ := keyThenTick_run
  exact ⟨s, ran, (irqs_exactly_once _ _ (onBoard_enters kernelCpu) (fun _ => rfl) (fun _ => rfl)
    run).1 1 (by decide)⟩

end MiniKernel.Kernel
