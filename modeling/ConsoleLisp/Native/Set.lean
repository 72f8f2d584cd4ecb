import ConsoleLisp.KeyOrder
import ConsoleLisp.Scope

/-!
# Sets of natives

* A `NativeSet` holds natives under the names that scripts call them by. `NativeSet.install` binds
  each in a scope, in the order of the set.
* `NativeSet.qualify` puts a namespace and a hyphen in front of every name and renames the natives
  to match.
* `HostValue.isNative` tells which values of a host have the shape of a native.
-/

namespace ConsoleLisp

/-- Natives under their script names. -/
abbrev NativeSet (κ : Type) := Keyed (Native κ)

namespace NativeSet

variable {κ : Type}

/-- Letters, digits and hyphens of the ASCII range. -/
def isNamespaceUnit (u : CodeUnit) : Bool :=
  (unit 'a' ≤ u && u ≤ unit 'z') || (unit 'A' ≤ u && u ≤ unit 'Z') || u.isDigit || u == unit '-'

/-- A name within a namespace. -/
def qualifiedName (space name : Text) : Text := space ++ unit '-' :: name

/-- Put every native of a set under a namespace, which must be a non-empty sequence of letters,
digits and hyphens. -/
def qualify (space : Text) (natives : NativeSet κ) : Except Fault (NativeSet κ) :=
  if space ≠ [] ∧ space.all isNamespaceUnit then
    .ok <| natives.map fun (name, native) =>
      (qualifiedName space name, ⟨qualifiedName space name, native.action⟩)
  else .error (.badNamespace space)

/-- Bind a native under a name. -/
def bindNative (scope : Scope) (name : Text) (native : Native κ) : HeapM κ Unit := do
  let symbol ← Heap.allocate (.symbol name)
  let value ← Heap.allocate (.native native)
  scope.bind symbol value

/-- Bind every native of a set; a later one shadows an earlier one of the same name. -/
def install (scope : Scope) (natives : NativeSet κ) : HeapM κ Unit :=
  natives.forM fun (name, native) => bindNative scope name native

end NativeSet

/-- A value of the host, as far as the shape of a native matters. -/
inductive HostValue
  | function
  | text (value : Text)
  | record (fields : List (Text × HostValue))
  | other
  deriving Inhabited

/-- The value has a name that is a text and a function to call. -/
def HostValue.isNative : HostValue → Bool
  | record fields =>
    (match Keyed.get? (ConsoleLisp.text "name") fields with
      | some (.text _) => true
      | _ => false)
    && match Keyed.get? (ConsoleLisp.text "call") fields with
      | some .function => true
      | _ => false
  | _ => false

end ConsoleLisp
