import ActionVm.Document.Reader

namespace ActionVm

namespace Anomaly

def isDuplicateBody : Anomaly → Bool
  | duplicateBody _ => true
  | _ => false

def isBodyMethodOutOfRange : Anomaly → Bool
  | bodyMethodOutOfRange .. => true
  | _ => false

/-- It is about a body and its method, so that no record shows it by itself. -/
def isLink (anomaly : Anomaly) : Bool :=
  anomaly.isDuplicateBody || anomaly.isBodyMethodOutOfRange

end Anomaly

namespace Read

/-- A property of readers that readers made from others inherit, as long as they refuse nothing. -/
structure PlainLaw (holds : (α : Type) → Read α → Prop) : Prop where
  pure {α : Type} (a : α) : holds α (Pure.pure a)
  bind {α β : Type} {x : Read α} {f : α → Read β} : holds α x → (∀ a, holds β (f a)) → holds β (x >>= f)
  position : holds Nat Read.position
  bytes (count : Nat) : holds Bytes (Read.bytes count)
  note (anomaly : Anomaly) : anomaly.isLink = false → holds Unit (Read.note anomaly)

/-- A property of readers that readers made from others inherit. -/
structure Law (holds : (α : Type) → Read α → Prop) : Prop extends PlainLaw holds where
  throw {α : Type} (e : ReadError) : holds α (throw e)

namespace PlainLaw

variable {holds : (α : Type) → Read α → Prop} (h : PlainLaw holds)

include h

theorem map {x : Read α} (g : α → β) (hx : holds α x) : holds β (g <$> x) := by
  rw [map_eq_pure_bind]
  exact h.bind hx fun _ => h.pure _

theorem noting {c : Prop} [Decidable c] {f : Unit → Read β} (ha : anomaly.isLink = false)
    (hf : holds β (f ())) : holds β (if c then Read.note anomaly >>= f else f ()) := by
  split
  · exact h.bind (h.note anomaly ha) fun _ => hf
  · exact hf

theorem noting_unless {c : Prop} [Decidable c] {f : Unit → Read β} (ha : anomaly.isLink = false)
    (hf : holds β (f ())) : holds β (if c then f () else Read.note anomaly >>= f) := by
  split
  · exact hf
  · exact h.bind (h.note anomaly ha) fun _ => hf

theorem optional_bind {c : Prop} [Decidable c] {x : Read α} {f : α → Read β} (hx : holds α x)
    (hf : ∀ a, holds β (f a)) : holds β (if c then x >>= f else Pure.pure e >>= f) := by
  split
  · exact h.bind hx hf
  · exact h.bind (h.pure e) hf

theorem u8 : holds UInt8 Read.u8 :=
  h.bind (h.bytes 1) fun _ => h.pure _

theorem u16 : holds UInt16 Read.u16 :=
  h.bind (h.bytes 2) fun _ => h.pure _

theorem d64 : holds Double Read.d64 :=
  h.bind (h.bytes 8) fun _ => h.pure _

theorem s24 : holds Int Read.s24 :=
  h.bind (h.bytes 3) fun _ => h.pure _

theorem groups (limit : Nat) : holds Bytes (Read.groups limit) := by
  induction limit with
  | zero => exact h.pure _
  | succ limit ih =>
    apply h.bind h.u8
    intro b
    split
    · exact h.pure _
    · exact h.bind ih fun _ => h.pure _

theorem u30 : holds UInt32 Read.u30 := by
  apply h.bind h.position
  intro offset
  apply h.bind (h.groups 5)
  intro taken
  exact h.noting rfl (h.pure _)

theorem u32 : holds UInt32 Read.u32 := by
  apply h.bind h.position
  intro offset
  apply h.bind (h.groups 5)
  intro taken
  exact h.noting rfl (h.pure _)

theorem s32 : holds Int32 Read.s32 := by
  apply h.bind (h.groups 5)
  intro taken
  dsimp only
  split <;> exact h.pure _

theorem text : holds String Read.text := by
  apply h.bind h.u30
  intro length
  apply h.bind h.position
  intro offset
  apply h.bind (h.bytes _)
  intro taken
  exact h.noting rfl (h.pure _)

theorem times {entry : Read α} (hentry : holds α entry) (count : Nat) : holds (List α) (Read.times count entry) := by
  induction count with
  | zero => exact h.pure _
  | succ count ih => exact h.bind hentry fun _ => h.bind ih fun _ => h.pure _

theorem numbered {entry : Nat → Read α} (hentry : ∀ index, holds α (entry index)) (index count : Nat) :
    holds (List α) (Read.numbered entry index count) := by
  induction count generalizing index with
  | zero => exact h.pure _
  | succ count ih => exact h.bind (hentry index) fun _ => h.bind (ih _) fun _ => h.pure _

theorem counted {entry : Read α} (hentry : holds α entry) : holds (List α) (Read.counted entry) :=
  h.bind h.u30 fun _ => h.times hentry _

theorem table {entry : Nat → Read α} (hentry : ∀ index, holds α (entry index)) :
    holds (List α) (Read.table entry) :=
  h.bind h.u30 fun _ => h.numbered hentry _ _

end PlainLaw

end Read

section Records

variable {holds : (α : Type) → Read α → Prop} (h : Read.Law holds)

include h

theorem Namespace.obeys (index : Nat) : holds Namespace (read index) :=
  h.bind h.u8 fun _ => h.noting_unless rfl (h.bind h.u30 fun _ => h.pure _)

theorem Namespace.obeys_set (index : Nat) : holds (List UInt32) (readSet index) :=
  h.bind h.u30 fun _ => h.noting rfl (h.times h.u30 _)

theorem Multiname.obeys (index : Nat) : holds Multiname (read index) := by
  apply h.bind h.u8
  intro kind
  unfold readKind
  split
  · exact h.bind h.u30 fun _ => h.bind h.u30 fun _ => h.pure _
  split
  · exact h.bind h.u30 fun _ => h.pure _
  split
  · exact h.pure _
  split
  · exact h.bind h.u30 fun _ => h.bind h.u30 fun _ => h.pure _
  split
  · exact h.bind h.u30 fun _ => h.pure _
  · exact h.throw _

theorem Pool.obeys : holds Pool read := by
  apply h.bind (h.table fun _ => h.s32)
  intro integers
  apply h.bind (h.table fun _ => h.u32)
  intro uintegers
  apply h.bind (h.table fun _ => h.d64)
  intro doubles
  apply h.bind (h.table fun _ => h.text)
  intro strings
  apply h.bind (h.table (Namespace.obeys h))
  intro namespaces
  apply h.bind (h.table (Namespace.obeys_set h))
  intro nsSets
  exact h.bind (h.table (Multiname.obeys h)) fun multinames => h.pure _

theorem OptionValue.obeys : holds OptionValue read :=
  h.bind h.u30 fun _ => h.bind h.u8 fun _ => h.noting_unless rfl (h.pure _)

theorem Method.obeys : holds Method read := by
  apply h.bind h.u30
  intro paramCount
  apply h.bind h.u30
  intro returnType
  apply h.bind (h.times h.u30 _)
  intro paramTypes
  apply h.bind h.u30
  intro name
  apply h.bind h.u8
  intro flags
  apply h.optional_bind (h.counted (OptionValue.obeys h))
  intro options
  exact h.optional_bind (h.times h.u30 _) fun paramNames => h.pure _

theorem Metadata.obeys : holds Metadata read := by
  apply h.bind h.u30
  intro name
  apply h.bind (h.counted _) fun items => h.pure _
  exact h.bind h.u30 fun key => h.bind h.u30 fun value => h.pure _

theorem SlotTrait.obeys : holds SlotTrait read := by
  apply h.bind h.u30
  intro slotId
  apply h.bind h.u30
  intro typeName
  apply h.bind h.u30
  intro vindex
  exact h.optional_bind h.u8 fun vkind => h.pure _

theorem MethodTrait.obeys : holds MethodTrait read :=
  h.bind h.u30 fun _ => h.bind h.u30 fun _ => h.pure _

theorem TraitKind.obeys (offset : Nat) (low : UInt8) : holds TraitKind (read offset low) := by
  unfold read
  split
  · exact h.bind (SlotTrait.obeys h) fun _ => h.pure _
  split
  · exact h.bind (MethodTrait.obeys h) fun _ => h.pure _
  split
  · exact h.bind (MethodTrait.obeys h) fun _ => h.pure _
  split
  · exact h.bind (MethodTrait.obeys h) fun _ => h.pure _
  split
  · exact h.bind h.u30 fun _ => h.bind h.u30 fun _ => h.pure _
  split
  · exact h.bind h.u30 fun _ => h.bind h.u30 fun _ => h.pure _
  split
  · exact h.bind (SlotTrait.obeys h) fun _ => h.pure _
  · exact h.throw _

theorem Trait.obeys : holds Trait read := by
  apply h.bind h.u30
  intro name
  apply h.bind h.position
  intro offset
  apply h.bind h.u8
  intro kindByte
  apply h.bind (TraitKind.obeys h offset _)
  intro kind
  exact h.optional_bind (h.counted h.u30) fun metadata => h.pure _

theorem Instance.obeys : holds Instance read := by
  apply h.bind h.u30
  intro name
  apply h.bind h.u30
  intro superName
  apply h.bind h.u8
  intro flags
  apply h.optional_bind (h.map some h.u30)
  intro protectedNs
  apply h.bind (h.counted h.u30)
  intro interfaces
  apply h.bind h.u30
  intro init
  exact h.bind (h.counted (Trait.obeys h)) fun traits => h.pure _

theorem Definition.obeys : holds Definition read :=
  h.bind h.u30 fun _ => h.bind (h.counted (Trait.obeys h)) fun _ => h.pure _

theorem ExceptionRange.obeys : holds ExceptionRange read := by
  apply h.bind h.u30
  intro start
  apply h.bind h.u30
  intro stop
  apply h.bind h.u30
  intro target
  exact h.bind h.u30 fun excType => h.bind h.u30 fun varName => h.pure _

theorem Body.obeys : holds (UInt32 × Body) read := by
  apply h.bind h.u30
  intro method
  apply h.bind h.u30
  intro maxStack
  apply h.bind h.u30
  intro localCount
  apply h.bind h.u30
  intro initScopeDepth
  apply h.bind h.u30
  intro maxScopeDepth
  apply h.bind h.u30
  intro codeLength
  apply h.bind (h.bytes _)
  intro code
  apply h.bind (h.counted (ExceptionRange.obeys h))
  intro exceptions
  exact h.bind (h.counted (Trait.obeys h)) fun traits => h.pure _

theorem Document.obeys_header : holds Document readHeader := by
  apply h.bind h.u16
  intro minorVersion
  apply h.bind h.u16
  intro majorVersion
  apply h.bind (Pool.obeys h)
  intro pool
  apply h.bind (h.counted (Method.obeys h))
  intro methods
  apply h.bind (h.counted (Metadata.obeys h))
  intro metadata
  apply h.bind h.u30
  intro classCount
  apply h.bind (h.times (Instance.obeys h) _)
  intro instances
  apply h.bind (h.times (Definition.obeys h) _)
  intro classes
  exact h.bind (h.counted (Definition.obeys h)) fun scripts => h.pure _

end Records

end ActionVm
