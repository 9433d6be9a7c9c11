import Spade.HirLowering.Types

/-!
# Translation of VCD values

The embedding of `vcd-translate/src/translation.rs`: how the bits that a simulator records for a
value are printed at the type of the value. A step is `none` where the source panics.

The names of the variants of an enum are not part of `ConcreteType` here, so the translation takes
them as an argument (`VariantNames`), for every place of the type that it prints.
-/

namespace Spade.VcdTranslate

open Mir

/-- `vcd::Value`. -/
inductive VcdValue where
  | v0 | v1 | x | z
  deriving DecidableEq, Repr

/-- `MaybeValue`. -/
inductive MaybeValue (α : Type) where
  | value (a : α)
  | undef
  | highImpedance

namespace MaybeValue

variable {α β : Type}

/-- `MaybeValue::map`. -/
def map (f : α → β) : MaybeValue α → MaybeValue β
  | value a => value (f a)
  | undef => undef
  | highImpedance => highImpedance

/-- `MaybeValue::write_to`. -/
def write [ToString α] : MaybeValue α → String
  | value a => toString a
  | undef => "UNDEF"
  | highImpedance => "HIGHIMP"

end MaybeValue

/-! ### Integers -/

/-- The loop of `translate_uint`, which collects the bits in chunks of a `u64`. -/
def translateUintFrom (flip : Bool) : ℕ → ℕ → ℕ → List VcdValue → MaybeValue ℕ
  | result, accumulatedBits, intermediate, [] =>
      .value (result * 2 ^ accumulatedBits + intermediate)
  | result, accumulatedBits, intermediate, v :: vs =>
      let (result, accumulatedBits, intermediate) :=
        if accumulatedBits = 64 then (result * 2 ^ accumulatedBits + intermediate, 0, 0)
        else (result, accumulatedBits, intermediate)
      match v with
      | .x => .undef
      | .z => .highImpedance
      | v => translateUintFrom flip result (accumulatedBits + 1)
          (intermediate * 2 % 2 ^ 64 + if (v == .v1) != flip then 1 else 0) vs

/-- `translate_uint`. -/
def translateUint (value : List VcdValue) (flip : Bool) : MaybeValue ℕ :=
  translateUintFrom flip 0 0 0 value

/-- `translate_signed_int`. -/
def translateSignedInt (value : List VcdValue) : Option (MaybeValue ℤ) :=
  if value.contains .x then some .undef
  else if value.contains .z then some .highImpedance
  else
    match value with
    | [] => none
    | sign :: rest =>
        let negative := sign == .v1
        let uintVal := translateUint rest negative
        if negative then some (uintVal.map fun uint : ℕ => -((uint : ℤ) + 1))
        else some (uintVal.map fun uint : ℕ => (uint : ℤ))

/-- `translate_unsigned_int`. -/
def translateUnsignedInt (value : List VcdValue) : MaybeValue ℕ :=
  if value.contains .x then .undef
  else if value.contains .z then .highImpedance
  else translateUint value false

/-! ### Values -/

/-- The names of the variants of the enums of a type: `names place variant` for the enum that is
reached by the indices of `place`. The elements of an array share a place, and a member of a variant
has the indices of the variant and of the member. -/
abbrev VariantNames := List ℕ → ℕ → String

/-- The names at the places below an index. -/
def VariantNames.child (names : VariantNames) (i : ℕ) : VariantNames := fun place =>
  names (i :: place)

/-- The texts with commas between them. -/
def joinComma : List String → String
  | [] => ""
  | [s] => s
  | s :: rest => s ++ "," ++ joinComma rest

/-- The bits of the value, extended to the size of the type, or `some none` where there is nothing to
print. The length is subtracted from the size before the two are compared. -/
def extended (inValue : List VcdValue) (t : ConcreteType) : Option (Option (List VcdValue)) := do
  let typeSize := (← t.toMirType).size
  if typeSize < inValue.length then none
  else if typeSize = 0 then some none
  else
    let extendValue : VcdValue ←
      match inValue with
      | [] => none
      | .x :: _ => some .x
      | .z :: _ => some .z
      | _ => some .v0
    some (some (List.replicate (typeSize - inValue.length) extendValue ++ inValue))

/-- The slices of the elements of an array, each of the given size, in the order of the bits. -/
def translateElements (translate : List VcdValue → Option String) (size : ℕ) :
    ℕ → List VcdValue → Option (List String)
  | 0, _ => some []
  | n + 1, value =>
      if size ≤ value.length then do
        some ((← translate (value.take size)) ::
          (← translateElements translate size n (value.drop size)))
      else none

/- `inner_translate_value`, one function for every container the recursion goes through. -/
mutual

/-- `inner_translate_value`: the text that is appended to the result. -/
def innerTranslateValue (names : VariantNames) (inValue : List VcdValue) (t : ConcreteType) :
    Option String := do
  match ← extended inValue t with
  | none => some ""
  | some value =>
      match t with
      | .tuple inner => do
          some ("(" ++ joinComma (← translateTypes names 0 value inner) ++ ")")
      | .struct members => do
          some ("\x7b" ++ joinComma (← translateMembers names 0 value members) ++ "\x7d")
      | .array inner size => do
          let parts ← translateElements (fun bits => innerTranslateValue (names.child 0) bits inner)
            (← inner.toMirType).size size.toNat value
          some ("[" ++ joinComma parts ++ "]")
      | .enum options =>
          let tagSize := tagSize options.length
          if value.length < tagSize then none
          else
            match translateUint (value.take tagSize) false with
            | .value tag =>
                if options.length ≤ tag then some "?TAG?"
                else do
                  let parts ← translateVariant (names.child tag) (value.drop tagSize) tag options
                  some (names [] tag ++ "(" ++ joinComma parts ++ ")")
            | .undef => some "UNDEF"
            | .highImpedance => some "HIGHIMP"
      | .single .bool _ | .single .bit _ | .single .clock _ =>
          match value with
          | [] => none
          | .v0 :: _ => some "false"
          | .v1 :: _ => some "true"
          | .x :: _ => some "UNDEF"
          | .z :: _ => some "HIGHIMP"
      | .single .int _ => do some (← translateSignedInt value).write
      | .single .uint _ => some (translateUnsignedInt value).write
      | .single .memory _ => some "memory"
      | .single .inOut [inner] => innerTranslateValue (names.child 0) inValue inner
      | .single .inOut _ => none
      | .single .void _ => some "void"
      | .integer _ => none
      | .backward inner => innerTranslateValue (names.child 0) inValue inner
      | .wire inner => innerTranslateValue (names.child 0) inValue inner
termination_by structural t

/-- The parts of a tuple or of the payload of a variant, from index `i` on. -/
def translateTypes (names : VariantNames) (i : ℕ) (value : List VcdValue) (ts : List ConcreteType) :
    Option (List String) :=
  match ts with
  | [] => some []
  | t :: ts => do
      let size := (← t.toMirType).size
      if size ≤ value.length then
        some ((← innerTranslateValue (names.child i) (value.take size) t) ::
          (← translateTypes names (i + 1) (value.drop size) ts))
      else none
termination_by structural ts

/-- The members of a struct, from index `i` on, with their names. -/
def translateMembers (names : VariantNames) (i : ℕ) (value : List VcdValue)
    (members : List (String × ConcreteType)) : Option (List String) :=
  match members with
  | [] => some []
  | (name, t) :: members => do
      let size := (← t.toMirType).size
      if size ≤ value.length then
        some ((name ++ ":" ++ (← innerTranslateValue (names.child i) (value.take size) t)) ::
          (← translateMembers names (i + 1) (value.drop size) members))
      else none
termination_by structural members

/-- The members of the variant with the given index. -/
def translateVariant (names : VariantNames) (value : List VcdValue) (variant : ℕ)
    (options : List (List ConcreteType)) : Option (List String) :=
  match options, variant with
  | [], _ => none
  | types :: _, 0 => translateTypes names 0 value types
  | _ :: options, variant + 1 => translateVariant names value variant options
termination_by structural options

end

/-- `translate_value`. -/
def translateValue (names : VariantNames) (ty : ConcreteType) (value : List VcdValue) :
    Option String :=
  innerTranslateValue names value ty

end Spade.VcdTranslate
