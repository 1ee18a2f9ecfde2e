import Mathlib.Data.Option.Basic

/-!
# Kernel — errors

`srs_kernel_error.hpp` and `srs_kernel_error.cpp`.  An error is an object with a code, a message
and the error it wraps; what only its printed description uses (the function, the file, the line,
the context and `errno`) is left out.

An `srs_error_t` is a pointer: `none` is `srs_success`, and otherwise the pointer has an address,
which `==` compares, and a target.  Every function that makes an object is given the address the
allocator returns for it.
-/

set_option autoImplicit false

namespace StCoroutine.Kernel

/-! ### The error codes in use -/

def ERROR_SUCCESS : Int := 0
def ERROR_SOCKET_CREATE : Int := 1000
def ERROR_SOCKET_BIND : Int := 1002
def ERROR_SOCKET_LISTEN : Int := 1003
def ERROR_SOCKET_READ : Int := 1007
def ERROR_SOCKET_READ_FULLY : Int := 1008
def ERROR_SOCKET_WRITE : Int := 1009
def ERROR_SOCKET_TIMEOUT : Int := 1011
def ERROR_ST_OPEN_SOCKET : Int := 1015
def ERROR_ST_CREATE_CYCLE_THREAD : Int := 1017
def ERROR_ST_CONNECT : Int := 1018
def ERROR_SYSTEM_IP_INVALID : Int := 1029
def ERROR_SYSTEM_DIR_EXISTS : Int := 1056
def ERROR_SYSTEM_CREATE_DIR : Int := 1057
def ERROR_SYSTEM_HOURGLASS_RESOLUTION : Int := 1065
def ERROR_THREAD_DISPOSED : Int := 1069
def ERROR_THREAD_INTERRUPED : Int := 1070
def ERROR_THREAD_TERMINATED : Int := 1071
def ERROR_SOCKET_SETKEEPALIVE : Int := 1075
def ERROR_THREAD_STARTED : Int := 1078
def ERROR_SOCKET_SETREUSEADDR : Int := 1079
def ERROR_SOCKET_SETCLOSEEXEC : Int := 1080

/-! ### `SrsCplxError` -/

/-- An error: its `code`, its `msg` and, unless it is the root, the error it has `wrapped`. -/
inductive SrsCplxError where
  | root (code : Int) (msg : String)
  | wrapping (code : Int) (msg : String) (wrapped : SrsCplxError)
  deriving DecidableEq, Repr

namespace SrsCplxError

def code : SrsCplxError → Int
  | root code _ => code
  | wrapping code _ _ => code

/-- `SrsCplxError::create`. -/
def create (code : Int) (msg : String) : SrsCplxError := root code msg

/-- `SrsCplxError::wrap`: the wrapper takes the code of what it wraps, and keeps the one of a new
object, `ERROR_SUCCESS`, when that is `NULL`. -/
def wrap (v : Option SrsCplxError) (msg : String) : SrsCplxError :=
  match v with
  | none => root ERROR_SUCCESS msg
  | some e => wrapping e.code msg e

/-- `SrsCplxError::copy` of an object: the whole chain is copied. -/
def copy : SrsCplxError → SrsCplxError
  | root code msg => root code msg
  | wrapping code msg wrapped => wrapping code msg (copy wrapped)

@[simp] theorem code_wrap_some (e : SrsCplxError) (msg : String) :
    (wrap (some e) msg).code = e.code := rfl

@[simp] theorem copy_eq (e : SrsCplxError) : e.copy = e := by
  induction e with
  | root c msg => rfl
  | wrapping c msg w ih => rw [copy, ih]

end SrsCplxError

/-! ### `srs_error_t` -/

/-- A pointer to an error. -/
structure ErrorPtr where
  addr : Nat
  err : SrsCplxError
  deriving DecidableEq, Repr

/-- `srs_error_t`; `none` is `srs_success`. -/
abbrev SrsError := Option ErrorPtr

namespace SrsError

/-- What `==` compares. -/
def addr (err : SrsError) : Option Nat := err.map ErrorPtr.addr

/-- `srs_error_new`, when the allocator returns the address `a`. -/
def new (a : Nat) (code : Int) (msg : String) : SrsError := some ⟨a, .create code msg⟩

/-- `srs_error_wrap`. -/
def wrap (a : Nat) (err : SrsError) (msg : String) : SrsError :=
  some ⟨a, .wrap (err.map ErrorPtr.err) msg⟩

/-- `srs_error_copy`. -/
def copy (a : Nat) (err : SrsError) : SrsError := err.map fun p => ⟨a, p.err.copy⟩

/-- `srs_error_code`. -/
def code (err : SrsError) : Int :=
  match err with
  | none => ERROR_SUCCESS
  | some p => p.err.code

@[simp] theorem code_none : code none = ERROR_SUCCESS := rfl
@[simp] theorem code_some (p : ErrorPtr) : code (some p) = p.err.code := rfl
@[simp] theorem code_new (a : Nat) (c : Int) (msg : String) : code (new a c msg) = c := rfl
@[simp] theorem new_ne_none (a : Nat) (c : Int) (msg : String) : new a c msg ≠ none := nofun
@[simp] theorem wrap_ne_none (a : Nat) (err : SrsError) (msg : String) : wrap a err msg ≠ none :=
  nofun

@[simp] theorem code_wrap_some (a : Nat) (p : ErrorPtr) (msg : String) :
    code (wrap a (some p) msg) = p.err.code := rfl

@[simp] theorem copy_eq_none {a : Nat} {err : SrsError} : copy a err = none ↔ err = none := by
  simp [copy]

@[simp] theorem code_copy (a : Nat) (err : SrsError) : code (copy a err) = code err := by
  cases err with
  | none => rfl
  | some p => simp [copy]

end SrsError

end StCoroutine.Kernel
