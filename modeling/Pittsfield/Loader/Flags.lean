import Pittsfield.Loader.Libdis
import Pittsfield.Machine.Weakening

/-!
# The flag words of `verify()`

The bit masks `BUMP_ESP` to `USE_EBP` as a record of bits. The same word type
holds an instruction's flags and the two state words `safety` and `unsafety`.
-/

namespace Pittsfield.Loader

open Pittsfield.Machine

@[ext] structure Flags where
  bump_esp : Bool := false
  change_ebp : Bool := false
  change_esp : Bool := false
  ebp_data_safe : Bool := false
  ebx_code_safe : Bool := false
  ebx_data_safe : Bool := false
  ijump : Bool := false
  iread : Bool := false
  iwrite : Bool := false
  jump : Bool := false
  stack_top_safe : Bool := false
  use_esp : Bool := false
  use_ebp : Bool := false
  deriving DecidableEq

namespace Flags

def union (f g : Flags) : Flags where
  bump_esp := f.bump_esp || g.bump_esp
  change_ebp := f.change_ebp || g.change_ebp
  change_esp := f.change_esp || g.change_esp
  ebp_data_safe := f.ebp_data_safe || g.ebp_data_safe
  ebx_code_safe := f.ebx_code_safe || g.ebx_code_safe
  ebx_data_safe := f.ebx_data_safe || g.ebx_data_safe
  ijump := f.ijump || g.ijump
  iread := f.iread || g.iread
  iwrite := f.iwrite || g.iwrite
  jump := f.jump || g.jump
  stack_top_safe := f.stack_top_safe || g.stack_top_safe
  use_esp := f.use_esp || g.use_esp
  use_ebp := f.use_ebp || g.use_ebp

instance : OrOp Flags := ⟨union⟩

variable (f g : Flags)

@[simp] theorem or_bump_esp : (f ||| g).bump_esp = (f.bump_esp || g.bump_esp) := rfl
@[simp] theorem or_change_ebp : (f ||| g).change_ebp = (f.change_ebp || g.change_ebp) := rfl
@[simp] theorem or_change_esp : (f ||| g).change_esp = (f.change_esp || g.change_esp) := rfl
@[simp] theorem or_ebp_data_safe :
    (f ||| g).ebp_data_safe = (f.ebp_data_safe || g.ebp_data_safe) := rfl
@[simp] theorem or_ebx_code_safe :
    (f ||| g).ebx_code_safe = (f.ebx_code_safe || g.ebx_code_safe) := rfl
@[simp] theorem or_ebx_data_safe :
    (f ||| g).ebx_data_safe = (f.ebx_data_safe || g.ebx_data_safe) := rfl
@[simp] theorem or_ijump : (f ||| g).ijump = (f.ijump || g.ijump) := rfl
@[simp] theorem or_iwrite : (f ||| g).iwrite = (f.iwrite || g.iwrite) := rfl
@[simp] theorem or_jump : (f ||| g).jump = (f.jump || g.jump) := rfl
@[simp] theorem or_stack_top_safe :
    (f ||| g).stack_top_safe = (f.stack_top_safe || g.stack_top_safe) := rfl
@[simp] theorem or_iread : (f ||| g).iread = (f.iread || g.iread) := rfl
@[simp] theorem or_use_esp : (f ||| g).use_esp = (f.use_esp || g.use_esp) := rfl
@[simp] theorem or_use_ebp : (f ||| g).use_ebp = (f.use_ebp || g.use_ebp) := rfl

/-- The strengthenings in a flag word, kept for the next instruction. -/
def strengthenings : Flags where
  ebx_data_safe := f.ebx_data_safe
  ebx_code_safe := f.ebx_code_safe
  stack_top_safe := f.stack_top_safe
  ebp_data_safe := f.ebp_data_safe

/-- `safety & (EBX_DATA_SAFE|EBX_CODE_SAFE)`: what a `popf` leaves of the safety bits. -/
def ebxSafe : Flags where
  ebx_data_safe := f.ebx_data_safe
  ebx_code_safe := f.ebx_code_safe

/-- The weakenings in a flag word. -/
def weakenings : Flags where
  change_esp := f.change_esp
  change_ebp := f.change_ebp
  bump_esp := f.bump_esp

/-- `unsafety &= ~(CHANGE_ESP|BUMP_ESP)`. -/
def clearEsp : Flags := { f with change_esp := false, bump_esp := false }

/-- `unsafety &= ~CHANGE_EBP`. -/
def clearEbp : Flags := { f with change_ebp := false }

@[simp] theorem clearEsp_change_esp : f.clearEsp.change_esp = false := rfl
@[simp] theorem clearEsp_bump_esp : f.clearEsp.bump_esp = false := rfl
@[simp] theorem clearEsp_change_ebp : f.clearEsp.change_ebp = f.change_ebp := rfl
@[simp] theorem clearEbp_change_esp : f.clearEbp.change_esp = f.change_esp := rfl
@[simp] theorem clearEbp_bump_esp : f.clearEbp.bump_esp = f.bump_esp := rfl
@[simp] theorem clearEbp_change_ebp : f.clearEbp.change_ebp = false := rfl

/-- One of the weakenings is set. -/
def weak : Bool := f.change_esp || f.bump_esp || f.change_ebp

end Flags

def BUMP_ESP : Flags := { bump_esp := true }
def CHANGE_EBP : Flags := { change_ebp := true }
def CHANGE_ESP : Flags := { change_esp := true }
def EBP_DATA_SAFE : Flags := { ebp_data_safe := true }
def EBX_CODE_SAFE : Flags := { ebx_code_safe := true }
def EBX_DATA_SAFE : Flags := { ebx_data_safe := true }
def IJUMP : Flags := { ijump := true }
def IREAD : Flags := { iread := true }
def IWRITE : Flags := { iwrite := true }
def JUMP : Flags := { jump := true }
def STACK_TOP_SAFE : Flags := { stack_top_safe := true }
def USE_ESP : Flags := { use_esp := true }
def USE_EBP : Flags := { use_ebp := true }

/-- `EBP_SAFETY` and `ESP_SAFETY`, the flags of the two masked pointers. -/
def EBP_SAFETY := EBP_DATA_SAFE
def ESP_SAFETY := USE_ESP

/-- No flag: the constant 0. -/
def NONE : Flags := {}

/-- What the flags of an instruction do to the weakenings. -/
def Flags.post (f : Flags) : Post where
  change_ebp := f.change_ebp
  change_esp := f.change_esp
  bump_esp := f.bump_esp
  use_esp := f.use_esp
  ebp_safe := f.ebp_data_safe

end Pittsfield.Loader
