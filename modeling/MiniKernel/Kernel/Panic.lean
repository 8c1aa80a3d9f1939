/-
# Kernel.Panic -- how a kernel function can stop

`kassert(msg, cond)` and `panic(msg)` print and loop forever, and so does the
page-fault handler; a call that reaches one of them has no later state.  A
`Stop` records which one it was.  The model's own way to stop, `fuel`, is kept
apart: it says that a bounded unrolling was too short, never that the code
panicked.
-/

namespace MiniKernel.Kernel

set_option autoImplicit false

/-- The assertions of the modelled functions. -/
inductive KAssert where
  -- init_heap
  | startAligned | endAligned
  -- expand and contract
  | expandGreater | dontOverflow | contractSmaller
  -- free
  | headerMagic | footerMagic | foundItem
  -- sorted_array.c
  | hasCmp | hasRoom | indexInRange
  deriving DecidableEq, Repr

/-- The panics of the modelled functions. -/
inductive Panic where
  | assertion (failed : KAssert)
  /-- `alloc_frame`: "No free frame." -/
  | noFreeFrame
  /-- The page-fault handler, with the faulting address. -/
  | pageFault (address : Nat)
  /-- `idt_handler`: "Unhandled interrupt" -/
  | unhandledInterrupt
  deriving DecidableEq, Repr

/-- Why a modelled call has no result. -/
inductive Stop where
  | panic (p : Panic)
  /-- A member of a null pointer is accessed. -/
  | nullDeref
  /-- The unrolling bound of the model was too small. -/
  | fuel
  deriving DecidableEq, Repr

/-- `kassert(msg, cond)` where no state is involved. -/
def kassertE (a : KAssert) (cond : Prop) [Decidable cond] : Except Stop Unit :=
  if cond then .ok () else .error (.panic (.assertion a))

@[simp] theorem kassertE_of {a : KAssert} {cond : Prop} [Decidable cond] (h : cond) :
    kassertE a cond = .ok () := if_pos h

@[simp] theorem kassertE_of_not {a : KAssert} {cond : Prop} [Decidable cond] (h : ¬cond) :
    kassertE a cond = .error (.panic (.assertion a)) := if_neg h

end MiniKernel.Kernel
