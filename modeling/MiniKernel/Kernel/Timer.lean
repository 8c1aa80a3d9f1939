/-
# Kernel.Timer -- timer.c: from the clocks of the interval timer to tick

`init_timer` programs channel 0 of the interval timer, whose output is the line 0 of the interrupt
controllers, and registers `timer_callback`, which counts in `tick`.

The channel gets the count `1193180 / freq` for the frequencies from 19 on, up to its clock
(`initTimer_counts`, `pitCount_eq_iff`); a square wave takes a count of at least two.  In every run
of the timer, the controllers, the processor and `irq_handler` the periods that ended are the calls
that `tick` counted, the one that waits or is under way, and those whose request came while the one
before it was still latched (`tick_exact`).
-/
import MiniKernel.Kernel.InterruptRequests
import MiniKernel.Theory.IntervalTimer

namespace MiniKernel.Kernel

open MiniKernel.Theory (Reaches Pair Controller Channel)

set_option autoImplicit false

/-! ## init_timer -/

/-- The port writes of `init_timer`; it does not come so far when the division by `freq` traps. -/
def initTimer (freq : Word32) : Option (List (BitVec 16 × BitVec 8)) :=
  if freq = 0 then none
  else
    let divisor : Word32 := 1193180 / freq
    let l : BitVec 8 := (divisor &&& 0xFF).setWidth 8
    let h : BitVec 8 := ((divisor >>> 8) &&& 0xFF).setWidth 8
    some [(0x43, 0x36), (0x40, l), (0x40, h)]

/-- `outb`, as channel 0 sees it. -/
def pitOutb (c : Channel) (port : BitVec 16) (v : BitVec 8) : Channel :=
  if port = 0x43 then c.control v else if port = 0x40 then c.data v else c

/-- The count that the channel gets. -/
def pitCount (freq : Word32) : Nat :=
  if 1193180 / freq.toNat % 65536 = 0 then 65536 else 1193180 / freq.toNat % 65536

theorem pitCount_pos (freq : Word32) : 0 < pitCount freq := by
  unfold pitCount
  split_ifs <;> omega

/-- The quotient fits into the count. -/
theorem pitCount_eq {freq : Word32} (slow : 19 ≤ freq.toNat) (fast : freq.toNat ≤ 1193180) :
    pitCount freq = 1193180 / freq.toNat := by
  have some : 0 < 1193180 / freq.toNat := Nat.div_pos fast (by omega)
  have fits : 1193180 / freq.toNat ≤ 1193180 / 19 := Nat.div_le_div_left slow (by decide)
  have small : 1193180 / freq.toNat % 65536 = 1193180 / freq.toNat := Nat.mod_eq_of_lt (by omega)
  rw [pitCount, small, if_neg (by omega)]

/-- From 18 Hz down it does not, and its high bits are lost; nor do frequencies above the clock
leave a count. -/
theorem pitCount_eq_iff {freq : Word32} (some : freq ≠ 0) :
    pitCount freq = 1193180 / freq.toNat ↔ 19 ≤ freq.toNat ∧ freq.toNat ≤ 1193180 := by
  have pos : 0 < freq.toNat := by bv_omega
  refine ⟨fun same => ?_, fun fits => pitCount_eq fits.1 fits.2⟩
  have count := pitCount_pos freq
  have small : pitCount freq ≤ 65536 := by
    unfold pitCount
    split_ifs <;> omega
  constructor
  · by_contra slow
    have least : 1193180 / 18 ≤ 1193180 / freq.toNat := Nat.div_le_div_left (by omega) pos
    omega
  · by_contra fast
    have zero : 1193180 / freq.toNat = 0 := Nat.div_eq_of_lt (by omega)
    omega

/-- The two bytes of the divisor, put together again. -/
theorem divisor_bytes (divisor : Word32) :
    ((((divisor >>> 8) &&& 0xFF).setWidth 8 ++ (divisor &&& 0xFF).setWidth 8 : BitVec (8 + 8))) =
      divisor.setWidth 16 := by
  apply BitVec.eq_of_getLsbD_eq
  intro i fits
  rw [BitVec.getLsbD_append]
  interval_cases i <;> simp

/-- The command byte, and the two bytes of a count. -/
theorem pitOutb_square (c : Channel) (l h : BitVec 8) :
    [((0x43 : BitVec 16), (0x36 : BitVec 8)), (0x40, l), (0x40, h)].foldl
        (fun c write => pitOutb c write.1 write.2) c =
      { access := 3, mode := 3, decimal := false, low := none
        count := some (Channel.countOf false (h ++ l)), period := none } := by
  have word : c.control 0x36 =
      { access := 3, mode := 3, decimal := false, low := none, count := none, period := none } := by
    rw [Channel.control, if_pos (by decide)]
    rfl
  show ((c.control 0x36).data l).data h = _
  rw [word]
  rfl

/-- **`init_timer`.**  Whatever the channel did before, it now counts square waves of the count. -/
theorem initTimer_counts (c : Channel) {freq : Word32} {writes : List (BitVec 16 × BitVec 8)}
    (set : initTimer freq = some writes) :
    (writes.foldl (fun c write => pitOutb c write.1 write.2) c).Counts (pitCount freq) 0 := by
  unfold initTimer at set
  split_ifs at set with zero
  obtain rfl := Option.some.inj set
  rw [pitOutb_square]
  refine ⟨show (3 : BitVec 3).getLsbD 1 = true by decide, ?_, rfl⟩
  have low : ((1193180 / freq : Word32).setWidth 16).toNat = 1193180 / freq.toNat % 65536 := by
    rw [BitVec.toNat_setWidth, BitVec.toNat_udiv]
    rfl
  have bytes := divisor_bytes (1193180 / freq)
  show some (Channel.countOf false (((1193180 / freq) >>> 8 &&& 0xFF).setWidth 8 ++
    ((1193180 / freq) &&& 0xFF).setWidth 8)) = some (pitCount freq)
  rw [bytes, Channel.countOf, pitCount, ← low]
  simp only [Bool.false_eq_true, if_false, BitVec.toNat_eq]
  rfl

/-! ## The calls and the lines -/

namespace Irqs

variable {H : Type} {entry : Nat → Option Word32} {handlers : Nat → Option H} {s s' : Irqs H}
  {lines : Nat → Prop}

/-- Only lines with a device get a call. -/
theorem next_calls (inv : s.Inv entry handlers lines)
    (calls : ∀ line call, s.call = some (line, call) → lines line) {e : IrqEvent}
    (taken : s.next entry handlers e = some s') :
    ∀ line call, s'.call = some (line, call) → lines line := by
  cases e with
  | raise line =>
      cases taken
      exact calls
  | acknowledge =>
      obtain ⟨-, line, pics, intNo, call, served, -, -, rfl⟩ := acknowledge_some taken
      rintro _ _ ⟨⟩
      exact inv.onLines line (Pair.next_isLine inv.set.wired served)
        (Pair.next_pending inv.set.wired served)
  | outb =>
      obtain ⟨line, write, writes, f, under, rfl⟩ := outb_some taken
      rintro _ _ ⟨⟩
      exact calls line _ under
  | callHandler =>
      obtain ⟨line, f, -, rfl⟩ := callHandler_some taken
      rintro _ _ ⟨⟩
  | setFlag flag =>
      obtain ⟨-, rfl⟩ := setFlag_some taken
      exact calls

/-- What the other steps leave alone. -/
theorem next_keeps {e : IrqEvent} (taken : s.next entry handlers e = some s') :
    ((∀ line, e = .raise line → line ≠ 0) → s'.latched.count 0 = s.latched.count 0) ∧
      (e ≠ .callHandler → s'.handled = s.handled) := by
  cases e with
  | raise line =>
      cases taken
      refine ⟨fun other => ?_, fun _ => rfl⟩
      dsimp only
      split_ifs
      · rfl
      · rw [List.count_append, List.count_cons_of_ne (other line rfl)]
        rfl
  | acknowledge =>
      obtain ⟨-, line, pics, intNo, call, -, -, -, rfl⟩ := acknowledge_some taken
      exact ⟨fun _ => rfl, fun _ => rfl⟩
  | outb =>
      obtain ⟨line, write, writes, f, -, rfl⟩ := outb_some taken
      exact ⟨fun _ => rfl, fun _ => rfl⟩
  | callHandler =>
      obtain ⟨line, f, -, rfl⟩ := callHandler_some taken
      exact ⟨fun _ => rfl, fun same => absurd rfl same⟩
  | setFlag flag =>
      obtain ⟨-, rfl⟩ := setFlag_some taken
      exact ⟨fun _ => rfl, fun _ => rfl⟩

end Irqs

/-! ## The system -/

section System

variable {H : Type}

/-- The channel, with the clocks it got since `init_timer`; the controllers and the calls of
`irq_handler`; and the counter of `timer_callback`. -/
structure Timed (H : Type) where
  pit : Channel
  clocks : Nat
  irqs : Irqs H
  tick : Word32
  /-- The rises that found the request of an earlier one latched. -/
  lost : Nat

/-- What can happen next. -/
inductive TimedEvent where
  /-- The channel gets a clock, and raises line 0 if its output rises. -/
  | clock
  /-- Another device, the processor or `irq_handler` takes a step. -/
  | irq (e : IrqEvent)

variable (entry : Nat → Option Word32) (handlers : Nat → Option H) (timerCallback : H)

/-- The function that `irq_handler` is about to call. -/
def Irqs.about (s : Irqs H) : Option H := s.call.bind fun call => call.2.ran

/-- One step. -/
def Timed.next [DecidableEq H] (s : Timed H) : TimedEvent → Option (Timed H)
  | .clock =>
      let waits := s.pit.clock.2 && s.irqs.pics.pending 0
      (if s.pit.clock.2 then s.irqs.next entry handlers (.raise 0) else some s.irqs).map fun irqs =>
        { s with
          pit := s.pit.clock.1
          clocks := s.clocks + 1
          irqs
          lost := if waits then s.lost + 1 else s.lost }
  | .irq .callHandler =>
      (s.irqs.next entry handlers .callHandler).map fun irqs =>
        { s with
          irqs
          tick := if s.irqs.about = some timerCallback then s.tick + 1 else s.tick }
  | .irq e => (s.irqs.next entry handlers e).map fun irqs => { s with irqs }

/-- The kernel after `init_idt` and `init_timer`, with interrupts off. -/
def Timed.booted (p : Pair) (c : Channel) (writes : List (BitVec 16 × BitVec 8)) : Timed H where
  pit := writes.foldl (fun c write => pitOutb c write.1 write.2) c
  clocks := 0
  irqs := .booted p
  tick := 0
  lost := 0

/-- Line 0 is the timer's alone. -/
def OwnLine (lines : Nat → Prop) : Timed H → TimedEvent → Prop
  | _, .irq (.raise line) => lines line ∧ line ≠ 0
  | _, _ => True

/-- Runs of the system with devices on `lines`. -/
def TimedRun [DecidableEq H] (lines : Nat → Prop) (p : Pair) (c : Channel)
    (writes : List (BitVec 16 × BitVec 8)) (s : Timed H) : Prop :=
  Reaches (fun s e s' => Timed.next entry handlers timerCallback s e = some s') (OwnLine lines)
    (.booted p c writes) s

/-- The gate of each line leads to `timer_callback` if the line is the timer's, and only then. -/
def CallsOwn (lines : Nat → Prop) : Prop :=
  ∀ line intNo, lines line → entry (32 + line) = some intNo →
    (handlers intNo.toNat = some timerCallback ↔ line = 0)

/-- The requests of the timer that are latched or being handled. -/
def Irqs.waiting (s : Irqs H) : Nat :=
  (if s.pics.pending 0 then 1 else 0) + if s.call.map Prod.fst = some 0 then 1 else 0

/-- What every run keeps. -/
structure Timed.Inv (lines : Nat → Prop) (count : Nat) (s : Timed H) : Prop where
  irqs : s.irqs.Inv entry handlers lines
  calls : ∀ line call, s.irqs.call = some (line, call) → lines line
  counts : s.pit.Counts count s.clocks
  rises : s.irqs.latched.count 0 + s.lost = (s.clocks - 1) / count
  tick : s.tick = BitVec.ofNat 32 ((s.irqs.handled.map Prod.fst).count 0)

theorem OwnLine.irq {lines : Nat → Prop} {s : Timed H} {e : IrqEvent}
    (on : OwnLine lines s (.irq e)) :
    OnLines lines s.irqs e ∧ ∀ line, e = .raise line → line ≠ 0 := by
  cases e with
  | raise line =>
      refine ⟨on.1, ?_⟩
      rintro _ ⟨⟩
      exact on.2
  | acknowledge => exact ⟨trivial, by simp⟩
  | outb => exact ⟨trivial, by simp⟩
  | callHandler => exact ⟨trivial, by simp⟩
  | setFlag flag => exact ⟨trivial, by simp⟩

theorem Timed.next_irq [DecidableEq H] {entry handlers timerCallback} {s : Timed H} {e : IrqEvent}
    (quiet : e ≠ .callHandler) : s.next entry handlers timerCallback (.irq e) =
      (s.irqs.next entry handlers e).map fun irqs => { s with irqs } := by
  cases e with
  | raise line => rfl
  | acknowledge => rfl
  | outb => rfl
  | callHandler => exact absurd rfl quiet
  | setFlag flag => rfl

namespace Timed.Inv

variable {entry handlers timerCallback} {lines : Nat → Prop} {count : Nat} {s s' : Timed H}

/-- Every other step. -/
theorem irq (inv : s.Inv entry handlers lines count) (enters : EntersFor entry lines)
    {e : IrqEvent} (quiet : e ≠ .callHandler) (on : OnLines lines s.irqs e)
    (other : ∀ line, e = .raise line → line ≠ 0) {irqs : Irqs H}
    (stepped : s.irqs.next entry handlers e = some irqs) :
    Timed.Inv entry handlers lines count { s with irqs } := by
  obtain ⟨latched, handled⟩ := Irqs.next_keeps stepped
  refine ⟨inv.irqs.step enters on stepped, Irqs.next_calls inv.irqs inv.calls stepped,
    inv.counts, ?_, ?_⟩
  · dsimp only
    rw [latched other]
    exact inv.rises
  · dsimp only
    rw [handled quiet]
    exact inv.tick

/-- What holds after `init_timer`. -/
theorem booted {p : Pair} {c : Channel} {freq : Word32} {writes : List (BitVec 16 × BitVec 8)}
    (master : p.master.Idle) (slave : p.slave.Idle) (set : initTimer freq = some writes) :
    (Timed.booted p c writes : Timed H).Inv entry handlers lines (pitCount freq) := by
  refine ⟨Irqs.Inv.booted master slave, ?_, initTimer_counts c set, ?_, rfl⟩
  · rintro _ _ ⟨⟩
  · exact (Nat.zero_div _).symm

variable [DecidableEq H]

/-- A clock. -/
theorem clock (inv : s.Inv entry handlers lines count) (pos : 0 < count)
    (enters : EntersFor entry lines) (wired : lines 0)
    (taken : s.next entry handlers timerCallback .clock = some s') :
    s'.Inv entry handlers lines count := by
  obtain ⟨counts, periods⟩ := inv.counts.clock pos
  have rises := inv.rises
  obtain ⟨irqs, stepped, rfl⟩ := Option.map_eq_some_iff.mp taken
  cases rise : s.pit.clock.2 with
  | false =>
      rw [rise, if_neg Bool.false_ne_true] at stepped periods
      obtain rfl := Option.some.inj stepped
      refine ⟨inv.irqs, inv.calls, counts, ?_, inv.tick⟩
      simp only [Bool.false_and, Bool.false_eq_true, if_false, Nat.add_sub_cancel]
      omega
  | true =>
      rw [rise, if_pos rfl] at stepped periods
      have keeps := (Irqs.next_keeps stepped).2 (by simp)
      have meets : OnLines lines s.irqs (.raise 0) := wired
      refine ⟨inv.irqs.step enters meets stepped, Irqs.next_calls inv.irqs inv.calls stepped,
        counts, ?_, ?_⟩
      · cases stepped
        simp only [Bool.true_and, Nat.add_sub_cancel]
        cases waits : s.irqs.pics.pending 0 with
        | true =>
            rw [if_pos rfl, if_pos rfl]
            omega
        | false =>
            rw [if_neg Bool.false_ne_true, if_neg Bool.false_ne_true, List.count_append,
              List.count_singleton_self]
            omega
      · dsimp only
        rw [keeps]
        exact inv.tick

/-- A call of `timer_callback`, or of another function. -/
theorem callHandler (inv : s.Inv entry handlers lines count) (enters : EntersFor entry lines)
    (own : CallsOwn entry handlers timerCallback lines)
    (taken : s.next entry handlers timerCallback (.irq .callHandler) = some s') :
    s'.Inv entry handlers lines count := by
  obtain ⟨irqs, stepped, rfl⟩ := Option.map_eq_some_iff.mp taken
  have rises := inv.rises
  have keeps := (Irqs.next_keeps stepped).1 (by simp)
  have meets : OnLines lines s.irqs .callHandler := trivial
  refine ⟨inv.irqs.step enters meets stepped, Irqs.next_calls inv.irqs inv.calls stepped,
    inv.counts, ?_, ?_⟩
  · dsimp only
    rw [keeps]
    exact rises
  · obtain ⟨line, f, under, rfl⟩ := Irqs.callHandler_some stepped
    obtain ⟨-, -, intNo, handed, runs⟩ := inv.irqs.owes line _ under
    have calls := own line intNo (inv.calls line _ under) handed
    have about : s.irqs.about = f := by rw [Irqs.about, under]; rfl
    dsimp only at runs ⊢
    rw [about, runs, List.map_append, List.count_append]
    by_cases timer : line = 0
    · rw [if_pos (calls.mpr timer), inv.tick, timer]
      simp [BitVec.ofNat_add]
    · rw [if_neg fun same => timer (calls.mp same), inv.tick]
      simp [timer]

/-- What one step preserves. -/
theorem step (inv : s.Inv entry handlers lines count) (pos : 0 < count)
    (enters : EntersFor entry lines) (wired : lines 0)
    (own : CallsOwn entry handlers timerCallback lines) {e : TimedEvent} (on : OwnLine lines s e)
    (taken : s.next entry handlers timerCallback e = some s') :
    s'.Inv entry handlers lines count := by
  cases e with
  | clock => exact inv.clock pos enters wired taken
  | irq e =>
      by_cases call : e = .callHandler
      · subst call
        exact inv.callHandler enters own taken
      · rw [next_irq call] at taken
        obtain ⟨irqs, stepped, rfl⟩ := Option.map_eq_some_iff.mp taken
        obtain ⟨meets, other⟩ := on.irq
        exact inv.irq enters call meets other stepped

end Timed.Inv

/-- **No tick is lost without a trace.**  Whatever the devices, the processor and `irq_handler` do
and in whatever order: of the periods that ended since `init_timer`, each was counted in `tick`,
or its request waits or is being handled, or came while the one before it was still latched. -/
theorem tick_exact [DecidableEq H] {lines : Nat → Prop} {p : Pair} {c : Channel} {freq : Word32}
    {writes : List (BitVec 16 × BitVec 8)} {s : Timed H} (slow : 19 ≤ freq.toNat)
    (fast : freq.toNat ≤ 596590) (set : initTimer freq = some writes)
    (enters : EntersFor entry lines) (wired : lines 0)
    (own : CallsOwn entry handlers timerCallback lines) (master : p.master.Idle)
    (slave : p.slave.Idle)
    (reached : TimedRun entry handlers timerCallback lines p c writes s) :
    ∃ calls, s.tick = BitVec.ofNat 32 calls ∧
      calls + s.irqs.waiting + s.lost = (s.clocks - 1) / (1193180 / freq.toNat) := by
  have inv : s.Inv entry handlers lines (pitCount freq) :=
    reached.invariant (Timed.Inv.booted master slave set)
    fun _ _ _ inv on taken => inv.step (pitCount_pos freq) enters wired own on taken
  have once := inv.irqs.once 0 (by decide)
  have rises := inv.rises
  refine ⟨_, inv.tick, ?_⟩
  rw [← pitCount_eq slow (by omega), ← rises, once, Irqs.waiting]
  omega

/-- A run computed event by event, without requests of other devices. -/
theorem TimedRun.of_events [DecidableEq H] {lines : Nat → Prop} {p : Pair} {c : Channel}
    {writes : List (BitVec 16 × BitVec 8)} {events : List TimedEvent} {s s' : Timed H}
    (quiet : ∀ line, TimedEvent.irq (.raise line) ∉ events)
    (run : TimedRun entry handlers timerCallback lines p c writes s)
    (ran : events.foldlM (Timed.next entry handlers timerCallback) s = some s') :
    TimedRun entry handlers timerCallback lines p c writes s' := by
  refine Reaches.of_events (fun e mem s => ?_) run ran
  cases e with
  | clock => trivial
  | irq e =>
      cases e with
      | raise line => exact absurd mem (quiet line)
      | acknowledge => trivial
      | outb => trivial
      | callHandler => trivial
      | setFlag flag => trivial

end System

/-! ## A timer at full speed -/

/-- Every second clock ends a period.  The first tick is handled; of the next two, the second comes
while the first still waits. -/
def threePeriods : List TimedEvent :=
  [.clock, .clock, .clock, .irq (.setFlag true), .irq .acknowledge, .irq .outb, .irq .callHandler,
    .clock, .clock, .clock, .clock]

/-- A channel that nothing was written to. -/
def resetPit : Channel := ⟨0, 0, false, none, none, none⟩

/-- Where `timer_callback` is linked. -/
def callback : Word32 := 0x200900

theorem onlyTimer_enters : EntersFor (irqEntry nasmLayout kernelCpu) (· = 0) := by
  rintro line rfl
  exact ⟨by decide, 32, irqEntry_timer nasmLayout kernelCpu, by decide⟩

theorem onlyTimer_own :
    CallsOwn (irqEntry nasmLayout kernelCpu) (handlersAfter [(32, some callback)]) callback
      (· = 0) := by
  rintro line intNo rfl entered
  rw [irqEntry_timer nasmLayout kernelCpu] at entered
  obtain rfl := Option.some.inj entered
  exact ⟨fun _ => rfl, fun _ => rfl⟩

/-- One tick of three is counted, one waits, and one is lost. -/
theorem one_tick_counted :
    ∃ writes s, initTimer 596590 = some writes ∧
      threePeriods.foldlM (Timed.next (irqEntry nasmLayout kernelCpu)
        (handlersAfter [(32, some callback)]) callback)
        (.booted ⟨resetPic, resetPic⟩ resetPit writes) = some s ∧ s.clocks = 7 ∧ s.lost = 1 ∧
      ∃ calls, s.tick = BitVec.ofNat 32 calls ∧
        calls + s.irqs.waiting + s.lost = (s.clocks - 1) / (1193180 / 596590) := by
  have counted : ((threePeriods.foldlM (Timed.next (irqEntry nasmLayout kernelCpu)
      (handlersAfter [(32, some callback)]) callback) (.booted ⟨resetPic, resetPic⟩ resetPit
        [(0x43, 0x36), (0x40, 2), (0x40, 0)])).map fun s => (s.clocks, s.lost)) = some (7, 1) := by
    decide +kernel
  obtain ⟨s, ran, ends⟩ := Option.map_eq_some_iff.mp counted
  obtain ⟨clocks, lost⟩ := Prod.mk.inj ends
  have set : initTimer 596590 = some [(0x43, 0x36), (0x40, 2), (0x40, 0)] := rfl
  refine ⟨_, s, set, ran, clocks, lost, ?_⟩
  exact tick_exact _ _ _ (by decide) (by decide) set onlyTimer_enters rfl onlyTimer_own
    (fun _ => rfl) (fun _ => rfl) (.of_events _ _ _ (by simp [threePeriods]) .refl ran)

end MiniKernel.Kernel
