/-
# Kernel.HeapBlocks -- headers, footers and the blocks they describe

A `Block` is what a heap is made of: a hole, or a live block with the size that
was asked for.  `Block.Tagged m b` says that the memory describes it: the header
of every block is in place, the footer of every live one is.  (A hole may have
no footer, or an old one: the first hole has none, and a merge to the right does
not write one.)

`Blocks m lo bs hi` says that tagged blocks tile the heap.  It is kept by any
write into one block that leaves tagged blocks over the same range
(`Blocks.replace`), and by a client's write into its data (`Blocks.write`).
-/
import MiniKernel.Kernel.Heap
import MiniKernel.Theory.Tiling

namespace MiniKernel.Kernel

open Theory

set_option autoImplicit false

/-! ## Headers and footers in memory -/

/-- The header fields at `h`. -/
structure IsHeader (m : Mem) (h isHole size : Nat) : Prop where
  magic : m.word h = vmHeapHdrMagic
  isHole : m.word (h + 4) = isHole
  size : m.word (h + 8) = size

/-- The footer fields at `f`. -/
structure IsFooter (m : Mem) (f header : Nat) : Prop where
  magic : m.word f = vmHeapFtrMagic
  header : m.word (f + 4) = header

/-- The memory after the three assignments to a header. -/
def headerAt (m : Mem) (h isHole size : Nat) : Mem :=
  ((m.setWord h vmHeapHdrMagic).setWord (h + 4) isHole).setWord (h + 8) size

/-- The memory after the two assignments to a footer. -/
def footerAt (m : Mem) (f header : Nat) : Mem :=
  (m.setWord f vmHeapFtrMagic).setWord (f + 4) header

/-- A header that is given another size. -/
theorem IsHeader.setSize {m : Mem} {h isHole size : Nat} (header : IsHeader m h isHole size)
    {s : Nat} (fits : s < 4294967296) : IsHeader (m.setWord (h + 8) s) h isHole s where
  magic := (Mem.word_setWord_of_disjoint (by omega)).trans header.magic
  isHole := (Mem.word_setWord_of_disjoint (by omega)).trans header.isHole
  size := Mem.word_setWord fits

theorem isHeader_headerAt {m : Mem} {h isHole size : Nat} (flag : isHole < 4294967296)
    (fits : size < 4294967296) : IsHeader (headerAt m h isHole size) h isHole size where
  magic := by
    rw [headerAt, Mem.word_setWord_of_disjoint (by omega), Mem.word_setWord_of_disjoint (by omega)]
    exact Mem.word_setWord (by decide)
  isHole := by
    rw [headerAt, Mem.word_setWord_of_disjoint (by omega)]
    exact Mem.word_setWord flag
  size := Mem.word_setWord fits

theorem isFooter_footerAt {m : Mem} {f header : Nat} (fits : header < 4294967296) :
    IsFooter (footerAt m f header) f header where
  magic := by
    rw [footerAt, Mem.word_setWord_of_disjoint (by omega)]
    exact Mem.word_setWord (by decide)
  header := Mem.word_setWord fits

theorem agreeOff_headerAt {m m' : Mem} {lo hi h : Nat} (isHole size : Nat)
    (agree : Mem.AgreeOff lo hi m m') (hlo : lo ≤ h) (hhi : h + 12 ≤ hi) :
    Mem.AgreeOff lo hi m (headerAt m' h isHole size) :=
  ((agree.setWord _ hlo (by omega)).setWord _ (by omega) (by omega)).setWord _ (by omega) (by omega)

theorem agreeOff_footerAt {m m' : Mem} {lo hi f : Nat} (header : Nat)
    (agree : Mem.AgreeOff lo hi m m') (hlo : lo ≤ f) (hhi : f + 8 ≤ hi) :
    Mem.AgreeOff lo hi m (footerAt m' f header) :=
  (agree.setWord _ hlo (by omega)).setWord _ (by omega) (by omega)

theorem IsHeader.of_agreeOff {m m' : Mem} {lo hi h isHole size : Nat}
    (header : IsHeader m h isHole size) (agree : Mem.AgreeOff lo hi m m')
    (off : h + 12 ≤ lo ∨ hi ≤ h) : IsHeader m' h isHole size where
  magic := (agree.word (by omega)).trans header.magic
  isHole := (agree.word (by omega)).trans header.isHole
  size := (agree.word (by omega)).trans header.size

theorem IsFooter.of_agreeOff {m m' : Mem} {lo hi f header : Nat}
    (footer : IsFooter m f header) (agree : Mem.AgreeOff lo hi m m')
    (off : f + 8 ≤ lo ∨ hi ≤ f) : IsFooter m' f header where
  magic := (agree.word (by omega)).trans footer.magic
  header := (agree.word (by omega)).trans footer.header

/-! ## The accesses of heap.c -/

section Rules

variable {K : KState} {lo hi h f : Nat} {m : Mem} {E : Stop → Prop}

theorem wp_hhMagic (sees : Sees K lo hi m) (hlo : lo ≤ h) (hhi : h + 12 ≤ hi)
    {Q : Nat → KState → Prop} : Program.wp (hhMagic h) Q E K ↔ Q (m.word h) K :=
  wp_read32 sees hlo (by omega)

theorem wp_hhIsHole (sees : Sees K lo hi m) (top : hi ≤ 4294967296) (hlo : lo ≤ h)
    (hhi : h + 12 ≤ hi) {Q : Nat → KState → Prop} :
    Program.wp (hhIsHole h) Q E K ↔ Q (m.word (h + 4)) K := by
  rw [hhIsHole, add32_eq (by omega)]
  exact wp_read32 sees (by omega) (by omega)

theorem wp_hhSize (sees : Sees K lo hi m) (top : hi ≤ 4294967296) (hlo : lo ≤ h)
    (hhi : h + 12 ≤ hi) {Q : Nat → KState → Prop} :
    Program.wp (hhSize h) Q E K ↔ Q (m.word (h + 8)) K := by
  rw [hhSize, add32_eq (by omega)]
  exact wp_read32 sees (by omega) (by omega)

theorem wp_hfMagic (sees : Sees K lo hi m) (hlo : lo ≤ f) (hhi : f + 8 ≤ hi)
    {Q : Nat → KState → Prop} : Program.wp (hfMagic f) Q E K ↔ Q (m.word f) K :=
  wp_read32 sees hlo (by omega)

theorem wp_hfHeader (sees : Sees K lo hi m) (top : hi ≤ 4294967296) (hlo : lo ≤ f)
    (hhi : f + 8 ≤ hi) {Q : Nat → KState → Prop} :
    Program.wp (hfHeader f) Q E K ↔ Q (m.word (f + 4)) K := by
  rw [hfHeader, add32_eq (by omega)]
  exact wp_read32 sees (by omega) (by omega)

theorem wp_setHhIsHole (sees : Sees K lo hi m) (top : hi ≤ 4294967296) (hlo : lo ≤ h)
    (hhi : h + 12 ≤ hi) {v : Nat} {Q : Unit → KState → Prop}
    (post : ∀ mem, Sees { K with mem := mem } lo hi (m.setWord (h + 4) v) →
      Q () { K with mem := mem }) : Program.wp (setHhIsHole h v) Q E K := by
  rw [setHhIsHole, add32_eq (by omega)]
  exact wp_write32 sees (by omega) (by omega) post

theorem wp_setHhSize (sees : Sees K lo hi m) (top : hi ≤ 4294967296) (hlo : lo ≤ h)
    (hhi : h + 12 ≤ hi) {v : Nat} {Q : Unit → KState → Prop}
    (post : ∀ mem, Sees { K with mem := mem } lo hi (m.setWord (h + 8) v) →
      Q () { K with mem := mem }) : Program.wp (setHhSize h v) Q E K := by
  rw [setHhSize, add32_eq (by omega)]
  exact wp_write32 sees (by omega) (by omega) post

theorem wp_setHfHeader (sees : Sees K lo hi m) (top : hi ≤ 4294967296) (hlo : lo ≤ f)
    (hhi : f + 8 ≤ hi) {v : Nat} {Q : Unit → KState → Prop}
    (post : ∀ mem, Sees { K with mem := mem } lo hi (m.setWord (f + 4) v) →
      Q () { K with mem := mem }) : Program.wp (setHfHeader f v) Q E K := by
  rw [setHfHeader, add32_eq (by omega)]
  exact wp_write32 sees (by omega) (by omega) post

theorem wp_setHeader (sees : Sees K lo hi m) (top : hi ≤ 4294967296) (hlo : lo ≤ h)
    (hhi : h + 12 ≤ hi) {isHole size : Nat} {Q : Unit → KState → Prop}
    (post : ∀ mem, Sees { K with mem := mem } lo hi (headerAt m h isHole size) →
      Q () { K with mem := mem }) : Program.wp (setHeader h isHole size) Q E K := by
  refine (Program.wp_bind _ _ _ _ _).mpr (wp_write32 sees hlo (by omega) fun mem sees => ?_)
  refine (Program.wp_bind _ _ _ _ _).mpr (wp_setHhIsHole sees top hlo hhi fun mem sees => ?_)
  exact wp_setHhSize sees top hlo hhi fun mem sees => post mem sees

theorem wp_setFooter (sees : Sees K lo hi m) (top : hi ≤ 4294967296) (hlo : lo ≤ f)
    (hhi : f + 8 ≤ hi) {header : Nat} {Q : Unit → KState → Prop}
    (post : ∀ mem, Sees { K with mem := mem } lo hi (footerAt m f header) →
      Q () { K with mem := mem }) : Program.wp (setFooter f header) Q E K := by
  refine (Program.wp_bind _ _ _ _ _).mpr (wp_write32 sees hlo (by omega) fun mem sees => ?_)
  exact wp_setHfHeader sees top hlo hhi fun mem sees => post mem sees

end Rules

/-! ## Blocks -/

/-- A block of the heap; `live` is the size that was asked for, `none` for a
hole. -/
structure Block where
  addr : Nat
  size : Nat
  live : Option Nat

namespace Block

/-- The value of `hh_is_hole`. -/
def flag (b : Block) : Nat := if b.live = none then 1 else 0

@[simp] theorem flag_hole (a s : Nat) : flag ⟨a, s, none⟩ = 1 := rfl
@[simp] theorem flag_live (a s r : Nat) : flag ⟨a, s, some r⟩ = 0 := rfl

/-- The memory describes the block, and the block has room for its tags and for
what was asked for. -/
structure Tagged (m : Mem) (b : Block) : Prop where
  header : IsHeader m b.addr b.flag b.size
  footer : ∀ r, b.live = some r → IsFooter m (b.addr + b.size - 8) b.addr
  big : 20 ≤ b.size
  fits : ∀ r, b.live = some r → r + 20 ≤ b.size

theorem tagged_hole {m : Mem} {a s : Nat} (header : IsHeader m a 1 s) (big : 20 ≤ s) :
    Tagged m ⟨a, s, none⟩ where
  header := header
  footer _ live := by cases live
  big := big
  fits _ live := by cases live

theorem tagged_live {m : Mem} {a s r : Nat} (header : IsHeader m a 0 s)
    (footer : IsFooter m (a + s - 8) a) (fits : r + 20 ≤ s) : Tagged m ⟨a, s, some r⟩ where
  header := header
  footer _ _ := footer
  big := by dsimp only; omega
  fits _ live := by
    obtain rfl := Option.some.inj live
    exact fits

theorem Tagged.of_agreeOff {m m' : Mem} {lo hi : Nat} {b : Block} (tagged : b.Tagged m)
    (agree : Mem.AgreeOff lo hi m m')
    (off : b.addr + b.size ≤ lo ∨ hi ≤ b.addr ∨ b.addr + 12 ≤ lo ∧ hi ≤ b.addr + b.size - 8) :
    b.Tagged m' where
  header := by
    have := tagged.big
    exact tagged.header.of_agreeOff agree (by omega)
  footer r live := by
    have := tagged.big
    exact (tagged.footer r live).of_agreeOff agree (by omega)
  big := tagged.big
  fits := tagged.fits

end Block

/-- Every block ends with a footer that points back to its header; `Tagged` asks
this of the live blocks only. -/
def Footed (m : Mem) (bs : List Block) : Prop :=
  ∀ b ∈ bs, IsFooter m (b.addr + b.size - 8) b.addr

@[simp] theorem footed_nil (m : Mem) : Footed m [] := fun _ mem => by cases mem

@[simp] theorem footed_cons {m : Mem} {b : Block} {bs : List Block} :
    Footed m (b :: bs) ↔ IsFooter m (b.addr + b.size - 8) b.addr ∧ Footed m bs :=
  List.forall_mem_cons

@[simp] theorem footed_append {m : Mem} {bs cs : List Block} :
    Footed m (bs ++ cs) ↔ Footed m bs ∧ Footed m cs := List.forall_mem_append

/-- Tagged blocks from `lo` to `hi`. -/
structure Blocks (m : Mem) (lo : Nat) (bs : List Block) (hi : Nat) : Prop where
  tiles : Tiles Block.addr Block.size lo bs hi
  tagged : ∀ b ∈ bs, b.Tagged m

namespace Blocks

variable {m m' : Mem} {lo hi : Nat} {pre post seg bs : List Block} {b c : Block}

theorem bounds (h : Blocks m lo bs hi) (mem : b ∈ bs) : lo ≤ b.addr ∧ b.addr + b.size ≤ hi :=
  h.tiles.bounds mem

/-- No two blocks have one address. -/
theorem eq_of_addr (h : Blocks m lo bs hi) (hb : b ∈ bs) (hc : c ∈ bs) (same : b.addr = c.addr) :
    b = c := by
  have sizeB := (h.tagged b hb).big
  have sizeC := (h.tagged c hc).big
  rcases h.tiles.eq_or_disjoint hb hc with rfl | before | after
  · rfl
  · omega
  · omega

/-- Writes outside the range do not matter. -/
theorem of_agreeOff (h : Blocks m lo bs hi) {x y : Nat} (agree : Mem.AgreeOff x y m m')
    (off : hi ≤ x ∨ y ≤ lo) : Blocks m' lo bs hi where
  tiles := h.tiles
  tagged b mem := by
    have := h.bounds mem
    exact (h.tagged b mem).of_agreeOff agree (by omega)

theorem append {mid : Nat} {cs : List Block} (left : Blocks m lo bs mid)
    (right : Blocks m mid cs hi) : Blocks m lo (bs ++ cs) hi where
  tiles := tiles_append.mpr ⟨mid, left.tiles, right.tiles⟩
  tagged b mem := (List.mem_append.mp mem).elim (left.tagged b) (right.tagged b)

theorem cons (tagged : b.Tagged m) (rest : Blocks m (b.addr + b.size) bs hi) :
    Blocks m b.addr (b :: bs) hi where
  tiles := ⟨rfl, rest.tiles⟩
  tagged c mem := by
    rcases List.mem_cons.mp mem with rfl | mem
    · exact tagged
    · exact rest.tagged c mem

theorem nil (m : Mem) (lo : Nat) : Blocks m lo [] lo where
  tiles := rfl
  tagged _ mem := by cases mem

/-- The blocks on both sides of a block. -/
theorem cut (h : Blocks m lo (pre ++ b :: post) hi) :
    Blocks m lo pre b.addr ∧ Blocks m (b.addr + b.size) post hi := by
  obtain ⟨left, right⟩ := h.tiles.cut
  exact ⟨⟨left, fun c mem => h.tagged c (List.mem_append_left _ mem)⟩,
    ⟨right, fun c mem => h.tagged c (List.mem_append_right _ (List.mem_cons_of_mem _ mem))⟩⟩

/-- The blocks behind the first one. -/
theorem tail (h : Blocks m lo (b :: post) hi) : Blocks m (b.addr + b.size) post hi := by
  have whole : Blocks m lo ([] ++ b :: post) hi := h
  exact whole.cut.2

/-- No block fits into an empty range. -/
theorem eq_nil (h : Blocks m lo bs hi) (empty : hi ≤ lo) : bs = [] := by
  cases bs with
  | nil => rfl
  | cons b bs =>
      have bounds := h.bounds List.mem_cons_self
      have big := (h.tagged b List.mem_cons_self).big
      omega

/-- Writes into one block that leave tagged blocks over its range. -/
theorem replace (h : Blocks m lo (pre ++ b :: post) hi)
    (agree : Mem.AgreeOff b.addr (b.addr + b.size) m m')
    (tiled : Blocks m' b.addr seg (b.addr + b.size)) : Blocks m' lo (pre ++ (seg ++ post)) hi := by
  obtain ⟨left, right⟩ := h.cut
  exact (left.of_agreeOff agree (.inl (Nat.le_refl _))).append
    (tiled.append (right.of_agreeOff agree (.inr (Nat.le_refl _))))

/-- Writes into the data of one block. -/
theorem write (h : Blocks m lo bs hi) (mem : b ∈ bs) {x y : Nat} (agree : Mem.AgreeOff x y m m')
    (hx : b.addr + 12 ≤ x) (hy : y ≤ b.addr + b.size - 8) : Blocks m' lo bs hi where
  tiles := h.tiles
  tagged c mem' := by
    have := (h.tagged b mem).big
    rcases h.tiles.eq_or_disjoint mem mem' with rfl | before | after
    · exact (h.tagged b mem).of_agreeOff agree (by omega)
    · exact (h.tagged c mem').of_agreeOff agree (by omega)
    · exact (h.tagged c mem').of_agreeOff agree (by omega)

/-- What lies outside the heap does not matter. -/
theorem congr (h : Blocks m lo bs hi) (same : ∀ a, lo ≤ a → a < hi → m' a = m a) :
    Blocks m' lo bs hi where
  tiles := h.tiles
  tagged b mem := by
    have tagged := h.tagged b mem
    have bounds := h.bounds mem
    have big := tagged.big
    have words : ∀ a, b.addr ≤ a → a + 4 ≤ b.addr + b.size → m'.word a = m.word a :=
      fun a h1 h2 => Mem.word_congr fun x _ _ => same x (by omega) (by omega)
    exact {
      header := ⟨(words _ (by omega) (by omega)).trans tagged.header.magic,
        (words _ (by omega) (by omega)).trans tagged.header.isHole,
        (words _ (by omega) (by omega)).trans tagged.header.size⟩
      footer := fun r live => ⟨(words _ (by omega) (by omega)).trans (tagged.footer r live).magic,
        (words _ (by omega) (by omega)).trans (tagged.footer r live).header⟩
      big := big
      fits := tagged.fits }

end Blocks

/-- What lies outside the heap does not matter. -/
theorem Footed.congr {m m' : Mem} {lo hi : Nat} {bs : List Block} (h : Blocks m lo bs hi)
    (footed : Footed m bs) (same : ∀ a, lo ≤ a → a < hi → m' a = m a) : Footed m' bs := by
  intro b mem
  have bounds := h.bounds mem
  have big := (h.tagged b mem).big
  have footer := footed b mem
  exact ⟨(Mem.word_congr fun x _ _ => same x (by omega) (by omega)).trans footer.magic,
    (Mem.word_congr fun x _ _ => same x (by omega) (by omega)).trans footer.header⟩

/-- The headers determine the blocks. -/
theorem Blocks.unique {m : Mem} {lo hi : Nat} {bs bs' : List Block} (h : Blocks m lo bs hi)
    (h' : Blocks m lo bs' hi) :
    bs.map (fun b => (b.addr, b.flag, b.size)) = bs'.map fun b => (b.addr, b.flag, b.size) := by
  induction bs generalizing lo bs' with
  | nil =>
      obtain rfl : lo = hi := h.tiles
      rw [h'.eq_nil (Nat.le_refl _)]
  | cons b bs ih =>
      cases bs' with
      | nil =>
          obtain rfl : lo = hi := h'.tiles
          cases h.eq_nil (Nat.le_refl _)
      | cons b' bs' =>
          obtain ⟨rfl, -⟩ := h.tiles
          have start : b'.addr = b.addr := h'.tiles.1
          have header := (h.tagged b List.mem_cons_self).header
          have header' := (h'.tagged b' List.mem_cons_self).header
          rw [start] at header'
          have size : b'.size = b.size := header'.size.symm.trans header.size
          have flag : b'.flag = b.flag := header'.isHole.symm.trans header.isHole
          have rest := h'.tail
          rw [start, size] at rest
          rw [List.map_cons, List.map_cons, ih h.tail rest, start, size, flag]

/-- The blocks from an address up to `hi` as the headers tell them: addresses, hole
flags and sizes, `n` of them at most. -/
def tags (m : Mem) (hi : Nat) : Nat → Nat → Option (List (Nat × Nat × Nat))
  | 0, _ => none
  | n + 1, a =>
      if a = hi then some []
      else (tags m hi n (a + m.word (a + 8))).map ((a, m.word (a + 4), m.word (a + 8)) :: ·)

/-- What the headers tell is the blocks. -/
theorem Blocks.tags_eq {m : Mem} {lo hi n : Nat} {bs : List Block} {l : List (Nat × Nat × Nat)}
    (h : Blocks m lo bs hi) (read : tags m hi n lo = some l) :
    bs.map (fun b => (b.addr, b.flag, b.size)) = l := by
  induction n generalizing lo bs l with
  | zero => cases read
  | succ n ih =>
      rw [tags] at read
      split at read
      · rename_i last
        obtain rfl := Option.some.inj read
        rw [h.eq_nil (Nat.le_of_eq last.symm)]
        rfl
      · rename_i more
        cases bs with
        | nil => exact absurd h.tiles more
        | cons b bs =>
            obtain ⟨rfl, -⟩ := h.tiles
            have header := (h.tagged b List.mem_cons_self).header
            rw [header.size, header.isHole] at read
            obtain ⟨l', read', rfl⟩ := Option.map_eq_some_iff.mp read
            rw [List.map_cons, ih h.tail read']

theorem eq_of_tags_hole {b : Block} {a s : Nat} (h : (b.addr, b.flag, b.size) = (a, 1, s)) :
    b = ⟨a, s, none⟩ := by
  obtain ⟨addr, size, live⟩ := b
  simp only [Prod.mk.injEq] at h
  obtain ⟨rfl, flag, rfl⟩ := h
  cases live with
  | none => rfl
  | some r => cases flag

theorem eq_of_tags_live {b : Block} {a s : Nat} (h : (b.addr, b.flag, b.size) = (a, 0, s)) :
    ∃ r, b = ⟨a, s, some r⟩ := by
  obtain ⟨addr, size, live⟩ := b
  simp only [Prod.mk.injEq] at h
  obtain ⟨rfl, flag, rfl⟩ := h
  cases live with
  | none => cases flag
  | some r => exact ⟨r, rfl⟩

/-- The footers are right where the headers say they are. -/
def TagsFooted (m : Mem) (l : List (Nat × Nat × Nat)) : Prop :=
  ∀ t ∈ l, m.word (t.1 + t.2.2 - 8) = vmHeapFtrMagic ∧ m.word (t.1 + t.2.2 - 8 + 4) = t.1

instance (m : Mem) (l : List (Nat × Nat × Nat)) : Decidable (TagsFooted m l) :=
  List.decidableBAll _ l

theorem Blocks.footed_of_tags {m : Mem} {lo hi n : Nat} {bs : List Block}
    {l : List (Nat × Nat × Nat)} (h : Blocks m lo bs hi) (read : tags m hi n lo = some l)
    (checked : TagsFooted m l) : Footed m bs := by
  intro b mem
  have listed : (b.addr, b.flag, b.size) ∈ l := by
    rw [← h.tags_eq read]
    exact List.mem_map_of_mem mem
  obtain ⟨magic, header⟩ := checked _ listed
  exact ⟨magic, header⟩

/-- The addresses of the holes. -/
def holes (bs : List Block) : List Nat :=
  bs.filterMap fun b => if b.live = none then some b.addr else none

/-- The ranges of the live blocks: the pointer and the size that was asked for. -/
def liveRanges (bs : List Block) : List (Nat × Nat) :=
  bs.filterMap fun b => b.live.map fun r => (b.addr + 12, r)

@[simp] theorem holes_append (bs cs : List Block) : holes (bs ++ cs) = holes bs ++ holes cs :=
  List.filterMap_append
@[simp] theorem holes_hole (a s : Nat) (bs : List Block) :
    holes (⟨a, s, none⟩ :: bs) = a :: holes bs := rfl
@[simp] theorem holes_live (a s r : Nat) (bs : List Block) :
    holes (⟨a, s, some r⟩ :: bs) = holes bs := rfl
@[simp] theorem holes_nil : holes [] = [] := rfl

@[simp] theorem liveRanges_append (bs cs : List Block) :
    liveRanges (bs ++ cs) = liveRanges bs ++ liveRanges cs := List.filterMap_append
@[simp] theorem liveRanges_hole (a s : Nat) (bs : List Block) :
    liveRanges (⟨a, s, none⟩ :: bs) = liveRanges bs := rfl
@[simp] theorem liveRanges_live (a s r : Nat) (bs : List Block) :
    liveRanges (⟨a, s, some r⟩ :: bs) = (a + 12, r) :: liveRanges bs := rfl
@[simp] theorem liveRanges_nil : liveRanges [] = [] := rfl

/-- No two live blocks have one pointer. -/
theorem Blocks.liveRanges_pairwise {m : Mem} {lo hi : Nat} {bs : List Block}
    (h : Blocks m lo bs hi) :
    (liveRanges bs).Pairwise fun x y => x.1 + x.2 ≤ y.1 ∧ x.1 < y.1 := by
  refine List.Pairwise.filterMap _ ?_ (h.tiles.pairwise.imp_of_mem
    (fun {x y} hx _ before => (⟨before, h.tagged x hx⟩ : _ ∧ x.Tagged m)))
  rintro ⟨a, s, live⟩ y ⟨before, tagged⟩ p at_x q at_y
  have big := tagged.big
  obtain ⟨r, rfl, rfl⟩ := Option.map_eq_some_iff.mp at_x
  obtain ⟨r', -, rfl⟩ := Option.map_eq_some_iff.mp at_y
  have fits := tagged.fits r rfl
  dsimp only at before big fits ⊢
  omega

/-- The holes come in address order. -/
theorem Blocks.holes_pairwise {m : Mem} {lo hi : Nat} {bs : List Block} (h : Blocks m lo bs hi) :
    (holes bs).Pairwise (· < ·) := by
  refine List.Pairwise.filterMap _ ?_ (h.tiles.pairwise.imp_of_mem
    (fun {x y} hx _ before => (⟨before, h.tagged x hx⟩ : _ ∧ x.Tagged m)))
  rintro x y ⟨before, tagged⟩ a at_x b at_y
  have big := tagged.big
  simp only [Option.ite_none_right_eq_some, Option.some.injEq] at at_x at_y
  omega

theorem mem_holes {bs : List Block} {h : Nat} :
    h ∈ holes bs ↔ ∃ s, (⟨h, s, none⟩ : Block) ∈ bs := by
  unfold holes
  rw [List.mem_filterMap]
  constructor
  · rintro ⟨⟨a, s, live⟩, mem, at_h⟩
    cases live with
    | none =>
        obtain rfl := Option.some.inj at_h
        exact ⟨s, mem⟩
    | some r => cases at_h
  · rintro ⟨s, mem⟩
    exact ⟨_, mem, rfl⟩

theorem mem_liveRanges {bs : List Block} {p r : Nat} :
    (p, r) ∈ liveRanges bs ↔ ∃ a s, p = a + 12 ∧ (⟨a, s, some r⟩ : Block) ∈ bs := by
  unfold liveRanges
  rw [List.mem_filterMap]
  constructor
  · rintro ⟨⟨a, s, live⟩, mem, at_p⟩
    cases live with
    | none => cases at_p
    | some r' =>
        simp only [Option.map_some, Option.some.injEq, Prod.mk.injEq] at at_p
        obtain ⟨rfl, rfl⟩ := at_p
        exact ⟨a, s, rfl, mem⟩
  · rintro ⟨a, s, rfl, mem⟩
    exact ⟨_, mem, rfl⟩

end MiniKernel.Kernel
