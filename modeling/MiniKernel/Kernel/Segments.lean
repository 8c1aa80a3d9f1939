/-
# Kernel.Segments -- the descriptor table, and the segments that the kernel runs in

`gdt_set_gate` spreads a base, a limit and the flags of a segment over the fields of a packed
`gdt_entry_t`; the processor reads the entry as one quadword and collects them again
(`segment_gdtSetGate`).  A limit has 20 bits, which count pages when bit 7 of the granularity is
set.

The table of `init_gdt` has four segments, all of them the whole address space, and one of them is
the stack segment of the kernel (`stackSegment_initGdt`).  An interrupt whose gate points at an
instruction of a stub, whatever it finds in the segment registers, enters the kernel's code segment
and calls the C handler in the kernel's data segment, so that the addresses of the program are
linear addresses (`handler_flat`).  The gates that point inside an instruction are left out, as in
`deliver`.
-/
import MiniKernel.Kernel.StubContext

namespace MiniKernel.Kernel

set_option autoImplicit false

/-! ## Descriptors -/

/-- `gdt_entry_t` -/
structure GdtEntry where
  limitLow : BitVec 16
  baseLow : BitVec 16
  baseMiddle : BitVec 8
  access : BitVec 8
  granularity : BitVec 8
  baseHigh : BitVec 8
  deriving DecidableEq

/-- The packed entry, as a little-endian quadword. -/
def GdtEntry.bits (e : GdtEntry) : BitVec 64 :=
  e.baseHigh ++ (e.granularity ++ (e.access ++ (e.baseMiddle ++ (e.baseLow ++ e.limitLow))))

/-- `gdt_set_gate` -/
def gdtSetGate (gdt : Nat → GdtEntry) (num : Nat) (base limit : Word32) (access gran : BitVec 8) :
    Nat → GdtEntry :=
  Function.update gdt num
    { baseLow := (base &&& 0xFFFF).setWidth 16
      baseMiddle := ((base >>> 16) &&& 0xFF).setWidth 8
      baseHigh := ((base >>> 24) &&& 0xFF).setWidth 8
      limitLow := (limit &&& 0xFFFF).setWidth 16
      granularity := ((limit >>> 16) &&& 0x0F).setWidth 8 ||| (gran &&& 0xF0)
      access }

/-- A segment, as the processor knows it. -/
structure Segment where
  base : Word32
  /-- The last offset. -/
  limit : Word32
  access : BitVec 8
  /-- Operands and stack pointers have 32 bits. -/
  big : Bool
  deriving DecidableEq

namespace Segment

/-- A descriptor, decoded. -/
def ofBits (q : BitVec 64) : Segment where
  base := q.extractLsb' 56 8 ++ q.extractLsb' 16 24
  limit :=
    let raw : BitVec 20 := q.extractLsb' 48 4 ++ q.extractLsb' 0 16
    if q.getLsbD 55 then raw ++ (0xFFF : BitVec 12) else raw.setWidth 32
  access := q.extractLsb' 40 8
  big := q.getLsbD 54

def present (s : Segment) : Bool := s.access.getLsbD 7
def dpl (s : Segment) : BitVec 2 := s.access.extractLsb' 5 2
/-- A code or data segment. -/
def ordinary (s : Segment) : Bool := s.access.getLsbD 4
def code (s : Segment) : Bool := s.access.getLsbD 3
/-- A data segment that can be written. -/
def writable (s : Segment) : Bool := !s.code && s.access.getLsbD 1

/-- The linear address of `n` bytes at an offset. -/
def linear (s : Segment) (offset : Word32) (n : Nat) : Option Nat :=
  if offset.toNat + n ≤ s.limit.toNat + 1 then some (s.base + offset).toNat else none

/-- The whole address space, for 32-bit code. -/
def Flat (s : Segment) : Prop := s.base = 0 ∧ s.limit = 0xFFFFFFFF ∧ s.big = true

/-- In a flat segment an address is a linear address. -/
theorem Flat.linear {s : Segment} (flat : s.Flat) {offset : Word32} {n : Nat}
    (fits : offset.toNat + n ≤ 4294967296) : s.linear offset n = some offset.toNat := by
  obtain ⟨base, limit, -⟩ := flat
  have inside : offset.toNat + n ≤ s.limit.toNat + 1 := by
    rw [limit]
    exact fits
  rw [Segment.linear, if_pos inside, base]
  simp

end Segment

/-! ## What gdt_set_gate encodes -/

/-- The fields, bit by bit. -/
theorem GdtEntry.getLsbD_bits (e : GdtEntry) (i : Nat) : e.bits.getLsbD i =
    if i < 16 then e.limitLow.getLsbD i
    else if i < 32 then e.baseLow.getLsbD (i - 16)
    else if i < 40 then e.baseMiddle.getLsbD (i - 32)
    else if i < 48 then e.access.getLsbD (i - 40)
    else if i < 56 then e.granularity.getLsbD (i - 48)
    else e.baseHigh.getLsbD (i - 56) := by
  have low : (e.baseLow ++ e.limitLow).getLsbD i =
      if i < 16 then e.limitLow.getLsbD i else e.baseLow.getLsbD (i - 16) := BitVec.getLsbD_append
  have middle : (e.baseMiddle ++ (e.baseLow ++ e.limitLow)).getLsbD i =
      if i < 32 then (e.baseLow ++ e.limitLow).getLsbD i else e.baseMiddle.getLsbD (i - 32) :=
    BitVec.getLsbD_append
  have access : (e.access ++ (e.baseMiddle ++ (e.baseLow ++ e.limitLow))).getLsbD i =
      if i < 40 then (e.baseMiddle ++ (e.baseLow ++ e.limitLow)).getLsbD i
      else e.access.getLsbD (i - 40) := BitVec.getLsbD_append
  have gran :
      (e.granularity ++ (e.access ++ (e.baseMiddle ++ (e.baseLow ++ e.limitLow)))).getLsbD i =
      if i < 48 then (e.access ++ (e.baseMiddle ++ (e.baseLow ++ e.limitLow))).getLsbD i
      else e.granularity.getLsbD (i - 48) := BitVec.getLsbD_append
  have all : e.bits.getLsbD i =
      if i < 56 then
        (e.granularity ++ (e.access ++ (e.baseMiddle ++ (e.baseLow ++ e.limitLow)))).getLsbD i
      else e.baseHigh.getLsbD (i - 56) := BitVec.getLsbD_append
  rw [all, gran, access, middle, low]
  split_ifs <;> first | rfl | omega

namespace Segment

theorem base_ofBits (e : GdtEntry) :
    (ofBits e.bits).base = (e.baseHigh ++ (e.baseMiddle ++ e.baseLow) : BitVec (8 + (8 + 16))) := by
  apply BitVec.eq_of_getLsbD_eq
  intro i fits
  have high : (ofBits e.bits).base.getLsbD i = if i < 24 then (e.bits.extractLsb' 16 24).getLsbD i
      else (e.bits.extractLsb' 56 8).getLsbD (i - 24) := BitVec.getLsbD_append
  have back : (e.baseHigh ++ (e.baseMiddle ++ e.baseLow)).getLsbD i =
      if i < 24 then (e.baseMiddle ++ e.baseLow).getLsbD i
      else e.baseHigh.getLsbD (i - 24) := BitVec.getLsbD_append
  have low : (e.baseMiddle ++ e.baseLow).getLsbD i =
      if i < 16 then e.baseLow.getLsbD i else e.baseMiddle.getLsbD (i - 16) := BitVec.getLsbD_append
  rw [high, back, low, BitVec.getLsbD_extractLsb', BitVec.getLsbD_extractLsb', e.getLsbD_bits,
    e.getLsbD_bits]
  grind

theorem access_ofBits (e : GdtEntry) : (ofBits e.bits).access = e.access := by
  apply BitVec.eq_of_getLsbD_eq
  intro i fits
  have field : (ofBits e.bits).access = e.bits.extractLsb' 40 8 := rfl
  rw [field, BitVec.getLsbD_extractLsb', e.getLsbD_bits]
  grind

theorem big_ofBits (e : GdtEntry) : (ofBits e.bits).big = e.granularity.getLsbD 6 :=
  e.getLsbD_bits 54

end Segment

section SetGate

variable (gdt : Nat → GdtEntry) (num : Nat) (base limit : Word32) (access gran : BitVec 8)

theorem gdtSetGate_base : (Segment.ofBits (gdtSetGate gdt num base limit access gran num).bits).base
    = base := by
  rw [Segment.base_ofBits, gdtSetGate, Function.update_self]
  apply BitVec.eq_of_getLsbD_eq
  intro i fits
  have parts : ((((base >>> 24) &&& 0xFF).setWidth 8 ++ (((base >>> 16) &&& 0xFF).setWidth 8 ++
      (base &&& 0xFFFF).setWidth 16) : BitVec (8 + (8 + 16)))).getLsbD i =
      if i < 24 then (((base >>> 16) &&& 0xFF).setWidth 8 ++
        (base &&& 0xFFFF).setWidth 16 : BitVec (8 + 16)).getLsbD i
      else (((base >>> 24) &&& 0xFF).setWidth 8).getLsbD (i - 24) := BitVec.getLsbD_append
  have low : (((base >>> 16) &&& 0xFF).setWidth 8 ++ (base &&& 0xFFFF).setWidth 16 :
      BitVec (8 + 16)).getLsbD i = if i < 16 then ((base &&& 0xFFFF).setWidth 16).getLsbD i
      else (((base >>> 16) &&& 0xFF).setWidth 8).getLsbD (i - 16) := BitVec.getLsbD_append
  refine parts.trans ?_
  rw [low]
  interval_cases i <;> simp

/-- The low half of the byte is the top of the limit. -/
theorem gdtSetGate_granularity {i : Nat} (fits : i < 8) :
    (gdtSetGate gdt num base limit access gran num).granularity.getLsbD i =
      if i < 4 then limit.getLsbD (16 + i) else gran.getLsbD i := by
  rw [gdtSetGate, Function.update_self]
  interval_cases i <;> simp

theorem gdtSetGate_limit :
    (Segment.ofBits (gdtSetGate gdt num base limit access gran num).bits).limit.toNat =
      if gran.getLsbD 7 then limit.toNat % 1048576 * 4096 + 4095 else limit.toNat % 1048576 := by
  generalize entry : gdtSetGate gdt num base limit access gran num = e
  have low : e.limitLow = (limit &&& 0xFFFF).setWidth 16 := by
    rw [← entry, gdtSetGate, Function.update_self]
  have flags : ∀ i < 8, e.granularity.getLsbD i =
      if i < 4 then limit.getLsbD (16 + i) else gran.getLsbD i := by
    intro i fits
    rw [← entry]
    exact gdtSetGate_granularity gdt num base limit access gran fits
  have raw : (e.bits.extractLsb' 48 4 ++ e.bits.extractLsb' 0 16 : BitVec (4 + 16)) =
      limit.setWidth 20 := by
    apply BitVec.eq_of_getLsbD_eq
    intro i fits
    rw [BitVec.getLsbD_append, BitVec.getLsbD_extractLsb', BitVec.getLsbD_extractLsb',
      e.getLsbD_bits, e.getLsbD_bits, low, BitVec.getLsbD_setWidth]
    by_cases below : i < 16
    · simp [below]
      interval_cases i <;> simp
    · have four := flags (i - 16) (by omega)
      rw [if_pos (by omega), show 16 + (i - 16) = i by omega] at four
      have field : 48 + (i - 16) - 48 = i - 16 := by omega
      rw [if_neg below, if_neg (by omega), if_neg (by omega), if_neg (by omega), if_neg (by omega),
        if_pos (by omega), field, four]
      simp [fits, show i - 16 < 4 by omega]
  have counts : e.bits.getLsbD 55 = gran.getLsbD 7 := by
    rw [e.getLsbD_bits]
    exact flags 7 (by decide)
  have size : (e.bits.extractLsb' 48 4 ++ e.bits.extractLsb' 0 16 : BitVec (4 + 16)).toNat =
      limit.toNat % 1048576 := by
    rw [raw, BitVec.toNat_setWidth]
  have decoded : (Segment.ofBits e.bits).limit = if e.bits.getLsbD 55 then
      ((e.bits.extractLsb' 48 4 ++ e.bits.extractLsb' 0 16 : BitVec (4 + 16)) ++
        (0xFFF : BitVec 12))
      else (e.bits.extractLsb' 48 4 ++ e.bits.extractLsb' 0 16 : BitVec (4 + 16)).setWidth 32 := rfl
  rw [decoded, counts]
  split
  · rw [BitVec.toNat_append, size, ← Nat.shiftLeft_add_eq_or_of_lt (BitVec.isLt _),
      Nat.shiftLeft_eq]
    rfl
  · rw [BitVec.toNat_setWidth, size]
    omega

theorem gdtSetGate_access :
    (Segment.ofBits (gdtSetGate gdt num base limit access gran num).bits).access = access := by
  rw [Segment.access_ofBits, gdtSetGate, Function.update_self]

theorem gdtSetGate_big :
    (Segment.ofBits (gdtSetGate gdt num base limit access gran num).bits).big =
      gran.getLsbD 6 := by
  rw [Segment.big_ofBits, gdtSetGate_granularity gdt num base limit access gran (by decide)]
  rfl

theorem gdtSetGate_of_ne {other : Nat} (ne : other ≠ num) :
    gdtSetGate gdt num base limit access gran other = gdt other := by
  rw [gdtSetGate, Function.update_of_ne ne]

/-- **The descriptor, decoded.**  From the entry that `gdt_set_gate` leaves the processor gets back
the base, the access byte and the size bit as they were passed, and the low 20 bits of the limit,
in bytes or in pages; no other entry changes. -/
theorem segment_gdtSetGate :
    (Segment.ofBits (gdtSetGate gdt num base limit access gran num).bits).base = base ∧
      (Segment.ofBits (gdtSetGate gdt num base limit access gran num).bits).limit.toNat =
        (if gran.getLsbD 7 then limit.toNat % 1048576 * 4096 + 4095
          else limit.toNat % 1048576) ∧
      (Segment.ofBits (gdtSetGate gdt num base limit access gran num).bits).access = access ∧
      (Segment.ofBits (gdtSetGate gdt num base limit access gran num).bits).big =
        gran.getLsbD 6 ∧
      ∀ other, other ≠ num → gdtSetGate gdt num base limit access gran other = gdt other :=
  ⟨gdtSetGate_base gdt num base limit access gran,
    gdtSetGate_limit gdt num base limit access gran,
    gdtSetGate_access gdt num base limit access gran,
    gdtSetGate_big gdt num base limit access gran,
    fun _ ne => gdtSetGate_of_ne gdt num base limit access gran ne⟩

end SetGate

/-! ## The table of init_gdt -/

/-- `init_gdt` -/
def initGdt (gdt : Nat → GdtEntry) : Nat → GdtEntry :=
  let null := gdtSetGate gdt 0 0 0 0 0
  let code := gdtSetGate null 1 0 0xFFFFF 0x9A 0xCF
  let data := gdtSetGate code 2 0 0xFFFFF 0x92 0xCF
  let userCode := gdtSetGate data 3 0 0xFFFFFFFF 0xFA 0xCF
  gdtSetGate userCode 4 0 0xFFFFFFFF 0xF2 0xCF

/-- `gdt_ptr.limit`: the last byte of the table. -/
def gdtPtrLimit : BitVec 16 := 8 * 5 - 1

/-- The segment that a selector names in a table with the last byte `limit`.  There is no local
table. -/
def select (gdt : Nat → GdtEntry) (limit sel : BitVec 16) : Option Segment :=
  let index := (sel >>> 3).toNat
  if sel.getLsbD 2 = false ∧ index ≠ 0 ∧ 8 * index + 7 ≤ limit.toNat then
    some (Segment.ofBits (gdt index).bits)
  else none

/-- What `ss` can be loaded with by a program in ring `cpl`; the other data segment registers take
it too. -/
def stackSegment (gdt : Nat → GdtEntry) (limit sel : BitVec 16) (cpl : BitVec 2) : Option Segment :=
  (select gdt limit sel).filter fun s =>
    s.present && s.ordinary && s.writable && s.dpl == cpl && sel.extractLsb' 0 2 == cpl

/-- What a gate can enter from ring `cpl`: code that is not less privileged. -/
def gateSegment (gdt : Nat → GdtEntry) (limit sel : BitVec 16) (cpl : BitVec 2) : Option Segment :=
  (select gdt limit sel).filter fun s =>
    s.present && s.ordinary && s.code && decide (s.dpl ≤ cpl)

/-- One of the four segments of the kernel, by its access byte. -/
def flat (access : BitVec 8) : Segment := ⟨0, 0xFFFFFFFF, access, true⟩

/-- The access bytes of the table, from entry 1 on. -/
def initGdtAccess : List (BitVec 8) := [0x9A, 0x92, 0xFA, 0xF2]

theorem flat_flat (access : BitVec 8) : (flat access).Flat := ⟨rfl, rfl, rfl⟩

/-- Base zero, and all limit bits set in pages. -/
theorem ofBits_flat (gdt : Nat → GdtEntry) (num : Nat) {limit : Word32} (access : BitVec 8)
    (pages : limit.toNat % 1048576 = 1048575) :
    Segment.ofBits (gdtSetGate gdt num 0 limit access 0xCF num).bits = flat access := by
  have base := gdtSetGate_base gdt num 0 limit access 0xCF
  have last := gdtSetGate_limit gdt num 0 limit access 0xCF
  have rights := gdtSetGate_access gdt num 0 limit access 0xCF
  have big := gdtSetGate_big gdt num 0 limit access 0xCF
  rw [if_pos (by decide), pages] at last
  generalize Segment.ofBits (gdtSetGate gdt num 0 limit access 0xCF num).bits = s at *
  obtain ⟨sBase, sLimit, sAccess, sBig⟩ := s
  have whole : sLimit = 0xFFFFFFFF := BitVec.eq_of_toNat_eq last
  subst base rights big whole
  rfl

theorem ofBits_initGdt (gdt : Nat → GdtEntry) {index : Nat} (one : 1 ≤ index) (five : index < 5) :
    Segment.ofBits (initGdt gdt index).bits = flat (initGdtAccess.getD (index - 1) 0) := by
  unfold initGdt
  interval_cases index
  · rw [gdtSetGate_of_ne _ _ _ _ _ _ (by decide), gdtSetGate_of_ne _ _ _ _ _ _ (by decide),
      gdtSetGate_of_ne _ _ _ _ _ _ (by decide), ofBits_flat _ _ _ rfl]
    rfl
  · rw [gdtSetGate_of_ne _ _ _ _ _ _ (by decide), gdtSetGate_of_ne _ _ _ _ _ _ (by decide),
      ofBits_flat _ _ _ rfl]
    rfl
  · rw [gdtSetGate_of_ne _ _ _ _ _ _ (by decide), ofBits_flat _ _ _ rfl]
    rfl
  · rw [ofBits_flat _ _ _ rfl]
    rfl

/-- Four segments, under all their selectors. -/
theorem select_initGdt (gdt : Nat → GdtEntry) (sel : BitVec 16) :
    select (initGdt gdt) gdtPtrLimit sel =
      if sel.getLsbD 2 = false ∧ 8 ≤ sel.toNat ∧ sel.toNat < 40 then
        some (flat (initGdtAccess.getD (sel.toNat / 8 - 1) 0))
      else none := by
  have index : (sel >>> 3).toNat = sel.toNat / 8 := by
    rw [BitVec.toNat_ushiftRight, Nat.shiftRight_eq_div_pow]
  have limit : gdtPtrLimit.toNat = 39 := rfl
  unfold select
  simp only [index, limit]
  by_cases inside : sel.getLsbD 2 = false ∧ 8 ≤ sel.toNat ∧ sel.toNat < 40
  · obtain ⟨gdtBit, low, high⟩ := inside
    rw [if_pos ⟨gdtBit, by omega, by omega⟩, if_pos ⟨gdtBit, low, high⟩,
      ofBits_initGdt gdt (by omega) (by omega)]
  · rw [if_neg inside, if_neg]
    rintro ⟨gdtBit, low, high⟩
    exact inside ⟨gdtBit, by omega, by omega⟩

/-- **`init_gdt`.**  Whatever the table held, ring 0 can load its stack segment with one selector,
ring 3 with another, and the rings between with none; both name the whole address space. -/
theorem stackSegment_initGdt (gdt : Nat → GdtEntry) (sel : BitVec 16) (cpl : BitVec 2) :
    stackSegment (initGdt gdt) gdtPtrLimit sel cpl =
      if cpl = 0 ∧ sel = 0x10 then some (flat 0x92)
      else if cpl = 3 ∧ sel = 0x23 then some (flat 0xF2)
      else none := by
  rw [stackSegment, select_initGdt]
  by_cases small : sel.toNat < 40
  · obtain ⟨n, below, rfl⟩ : ∃ n < 40, sel = BitVec.ofNat 16 n := ⟨sel.toNat, small, by simp⟩
    revert n cpl
    decide +kernel
  · have kernel : sel ≠ 0x10 := by rintro rfl; exact small (by decide)
    have user : sel ≠ 0x23 := by rintro rfl; exact small (by decide)
    have outside : ¬(sel.getLsbD 2 = false ∧ 8 ≤ sel.toNat ∧ sel.toNat < 40) :=
      fun inside => small inside.2.2
    rw [if_neg outside, if_neg fun named => kernel named.2, if_neg fun named => user named.2]
    rfl

theorem stackSegment_kernel (gdt : Nat → GdtEntry) :
    stackSegment (initGdt gdt) gdtPtrLimit 0x10 0 = some (flat 0x92) := by
  rw [stackSegment, select_initGdt]
  decide

/-! ## The gates -/

/-- A present gate for 32-bit code that turns interrupts off. -/
def IdtEntry.interruptGate (e : IdtEntry) : Bool :=
  e.flags.getLsbD 7 && e.flags.extractLsb' 0 5 == 0x0E

/-- A loop that installs one gate for each vector of a list. -/
theorem sel_flags_install (addr : Nat → Word32) (sel : BitVec 16) (flags : BitVec 8) (v : Nat)
    (vectors : List Nat) (small : ∀ i ∈ vectors, i < 256) (idt : Nat → IdtEntry) :
    let after := vectors.foldl
      (fun idt i => idtSetGate idt (BitVec.ofNat 8 i) (addr i) sel flags) idt v
    (after.sel, after.flags) =
      if v ∈ vectors then (sel, flags) else ((idt v).sel, (idt v).flags) := by
  induction vectors using List.reverseRecOn with
  | nil => rfl
  | append_singleton vectors i ih =>
      have fits : i % 256 = i := Nat.mod_eq_of_lt (small i (by simp))
      have before := ih fun j mem => small j (List.mem_append_left _ mem)
      simp only [List.foldl_append, List.foldl_cons, List.foldl_nil] at before ⊢
      by_cases same : v = i
      · subst same
        simp [idtSetGate, fits]
      · rw [idtSetGate, Function.update_of_ne (by rw [BitVec.toNat_ofNat]; omega), before]
        simp [same]

/-- 48 gates, and zeros. -/
theorem sel_flags_initIdt (isr0 irq0 : Word32) (v : Nat) :
    ((initIdt isr0 irq0 v).sel, (initIdt isr0 irq0 v).flags) =
      if v < 48 then (0x08, 0x8E) else (0, 0) := by
  have irqs := sel_flags_install (fun i => irq0 + BitVec.ofNat 32 i - 32) 0x08 0x8E v
    (List.range' 32 16) (by simp [List.mem_range']; omega)
  have isrs := sel_flags_install (fun i => isr0 + BitVec.ofNat 32 i) 0x08 0x8E v
    (List.range 32) (by simp; omega) (fun _ => IdtEntry.zero)
  rw [initIdt, irqs]
  simp only [List.mem_range, List.mem_range'_1] at isrs ⊢
  by_cases high : 32 ≤ v ∧ v < 32 + 16
  · rw [if_pos high, if_pos (by omega)]
  · rw [if_neg high, isrs]
    by_cases low : v < 32
    · rw [if_pos low, if_pos (by omega)]
    · rw [if_neg low, if_neg (by omega)]
      rfl

/-! ## Into a C handler -/

/-- What runs from an address on ends in a common stub. -/
theorem Layout.codeAt_some (l : Layout) {a : Nat} {code : List Instr}
    (found : l.codeAt a = some code) :
    ∃ v i, code = (stub v).drop i ++ commonStub (stubHandler v) := by
  unfold Layout.codeAt at found
  obtain ⟨v, -, inner⟩ := List.exists_of_findSome?_eq_some found
  obtain ⟨i, -, hit⟩ := List.exists_of_findSome?_eq_some inner
  split_ifs at hit with same
  exact ⟨v, i, (Option.some.inj hit).symm⟩

/-- Both common stubs load the kernel's data segment. -/
theorem commonStub_seg (h : Label) (c : Cpu) :
    ∃ called, Cpu.runToCall (commonStub h) c = some (h, called, (commonStub h).drop 11) ∧
      ∀ s, called.seg s = 0x10 := by
  refine ⟨_, rfl, fun s => ?_⟩
  have loaded := setWidth_setLow (Cpu.setLow (c.gpr .eax) (c.seg .ds)) 0x10
  cases s <;> simpa [Cpu.exec, Function.update] using loaded

/-- **Kernel mode.**  Through whichever gate at the start of an instruction an interrupt enters the
kernel, also one that misses its stub, and whatever the segment registers held: the C handler is
called in the kernel's code segment with all data segment registers in its data segment, where an
address of the program is a linear address. -/
theorem handler_flat (gdt : Nat → GdtEntry) (l : Layout) {v : Nat} (vector : v < 48)
    (errCode : Word32) (c : Cpu) {f : Label} {called : Cpu} {rest : List Instr}
    (delivered : deliver l v errCode c = some (f, called, rest)) :
    (initIdt (BitVec.ofNat 32 l.isr0) (BitVec.ofNat 32 l.irq0) v).interruptGate = true ∧
      gateSegment (initGdt gdt) gdtPtrLimit
        (initIdt (BitVec.ofNat 32 l.isr0) (BitVec.ofNat 32 l.irq0) v).sel 0 = some (flat 0x9A) ∧
      (∀ r, stackSegment (initGdt gdt) gdtPtrLimit (called.seg r) 0 = some (flat 0x92)) ∧
      ∀ (access : BitVec 8) (offset : Word32) (n : Nat), offset.toNat + n ≤ 4294967296 →
        (flat access).linear offset n = some offset.toNat := by
  have kinds := sel_flags_initIdt (BitVec.ofNat 32 l.isr0) (BitVec.ofNat 32 l.irq0) v
  rw [if_pos vector] at kinds
  obtain ⟨sel, flags⟩ := Prod.mk.inj kinds
  refine ⟨?_, ?_, ?_, fun access _ _ fits => (flat_flat access).linear fits⟩
  · rw [IdtEntry.interruptGate, flags]
    decide
  · rw [sel, gateSegment, select_initGdt]
    decide
  · obtain ⟨code, found, run⟩ := Option.bind_eq_some_iff.mp delivered
    obtain ⟨w, i, rfl⟩ := l.codeAt_some found
    have quiet : ∀ h, Instr.call h ∉ (stub w).drop i :=
      fun h mem => call_notMem_stub w h (List.mem_of_mem_drop mem)
    obtain ⟨entered, ran, segs⟩ := commonStub_seg (stubHandler w)
      (Cpu.execBlock ((stub w).drop i) (enterGate v errCode c))
    rw [Cpu.runToCall_append quiet, ran] at run
    obtain ⟨-, rfl, -⟩ := run
    intro r
    rw [segs, stackSegment_kernel]

/-- A key, while a program runs in the user's data segment. -/
theorem user_segment_replaced :
    ∃ called rest, deliver nasmLayout 33 0 { kernelCpu with seg := fun _ => 0x23 } =
        some (.irqHandler, called, rest) ∧
      ∀ r, stackSegment (initGdt fun _ => ⟨0, 0, 0, 0, 0, 0⟩) gdtPtrLimit (called.seg r) 0 =
        some (flat 0x92) :=
  ⟨_, _, rfl, (handler_flat _ nasmLayout (v := 33) (by decide) 0 _ rfl).2.2.1⟩

end MiniKernel.Kernel
