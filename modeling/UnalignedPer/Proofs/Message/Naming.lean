import UnalignedPer.Message.Decode
import UnalignedPer.Message.Encode
import UnalignedPer.Proofs.Descriptor
import UnalignedPer.Proofs.Running

/-!
# The names of types do not matter

`Descriptor.unnamed` is a type without the names of types, its own and those of the types in it. Items, fields and alternatives
keep theirs.

A message is read without a look at the names of types (`decode_unnamed`). When it is written they occur in faults only, which
tell the type that a value does not fit; so two types that differ in names of types give the same bits, or the same fault but
for those words (`encode_unnamed`).
-/

namespace UnalignedPer

namespace Descriptor

mutual

/-- The type without the names of types. -/
def unnamed : Descriptor → Descriptor
  | simple _ type extensible => simple "" type extensible
  | enumerated _ items standard => enumerated "" items standard
  | sequence _ fields standard => sequence "" (unnamedFields fields) standard
  | sequenceOf _ element size extensible => sequenceOf "" element.unnamed size extensible
  | choice _ alternatives standard => choice "" (unnamedAlternatives alternatives) standard

/-- Fields without the names of types. -/
def unnamedFields : List (Field Descriptor) → List (Field Descriptor)
  | [] => []
  | ⟨name, optional, type⟩ :: fields => ⟨name, optional, type.unnamed⟩ :: unnamedFields fields

/-- Alternatives without the names of types. -/
def unnamedAlternatives : List (String × Descriptor) → List (String × Descriptor)
  | [] => []
  | (name, type) :: alternatives => (name, type.unnamed) :: unnamedAlternatives alternatives

end

/-- Fields lose the names of their types one by one. -/
theorem unnamedFields_eq_map (fields : List (Field Descriptor)) :
    unnamedFields fields = fields.map fun field => ⟨field.name, field.optional, field.type.unnamed⟩ := by
  induction fields with
  | nil => rfl
  | cons field fields ih => rw [unnamedFields, ih, List.map_cons]

/-- Alternatives lose the names of their types one by one. -/
theorem unnamedAlternatives_eq_map (alternatives : List (String × Descriptor)) :
    unnamedAlternatives alternatives = alternatives.map fun alternative => (alternative.1, alternative.2.unnamed) := by
  induction alternatives with
  | nil => rfl
  | cons alternative alternatives ih => rw [unnamedAlternatives, ih, List.map_cons]

/-- Another name is no difference. -/
@[simp] theorem unnamed_rename (name : String) (type : Descriptor) : (type.rename name).unnamed = type.unnamed := by
  cases type <;> simp only [rename, unnamed]

/-- There are as many fields as before. -/
@[simp] theorem length_unnamedFields (fields : List (Field Descriptor)) : (unnamedFields fields).length = fields.length := by
  rw [unnamedFields_eq_map, List.length_map]

/-- What the packed form depends on is the same without names. -/
@[simp] theorem constraint_unnamed (type : Descriptor) : type.unnamed.constraint = type.constraint := by
  have hcount : ∀ fields : List (Field Descriptor), (unnamedFields fields).countP (·.optional) = fields.countP (·.optional) := by
    intro fields
    rw [unnamedFields_eq_map, List.countP_map]
    rfl
  have htake : ∀ (fields : List (Field Descriptor)) (n : Nat), (unnamedFields fields).take n = unnamedFields (fields.take n) := by
    intro fields n
    rw [unnamedFields_eq_map, unnamedFields_eq_map, List.map_take]
  cases type with
  | simple | enumerated | sequenceOf => rfl
  | sequence name fields standard =>
    have hoptional : optionalCount (unnamedFields fields) standard = optionalCount fields standard := by
      cases standard with
      | none => exact hcount fields
      | some n => rw [optionalCount, optionalCount, htake, hcount]
    rw [unnamed, constraint, constraint, hoptional, length_unnamedFields]
  | choice name alternatives standard =>
    rw [unnamed, constraint, constraint, unnamedAlternatives_eq_map, List.length_map]

/-! ## Reading -/

/-- A value without parts is read the same without names. -/
theorem readSimple_unnamed (type : Descriptor) (plain : SimpleType) : type.unnamed.readSimple plain = type.readSimple plain := by
  cases plain <;> simp only [readSimple, constraint_unnamed]

/-- A value is read the same without names. -/
theorem read_unnamed (type : Descriptor) : type.unnamed.read = type.read := by
  induction type using Descriptor.induction with
  | simple name plain extensible => exact readSimple_unnamed (simple name plain extensible) plain
  | enumerated name items standard => rfl
  | sequence name fields standard ih =>
    have hfields : readFields (unnamedFields fields) = readFields fields := by
      clear name standard
      induction fields with
      | nil => rfl
      | cons field fields ih' =>
        rw [unnamedFields, readFields, readFields, ih field (List.mem_cons_self ..),
          ih' fun other hm => ih other (List.mem_cons_of_mem _ hm)]
    have hc := constraint_unnamed (sequence name fields standard)
    rw [unnamed] at hc ⊢
    rw [read, read, hc, hfields]
  | sequenceOf name element size extensible ih =>
    rw [unnamed, read, read, ih]
    rfl
  | choice name alternatives standard ih =>
    have halternatives : ∀ index, readAlternative (unnamedAlternatives alternatives) index = readAlternative alternatives index := by
      clear name standard
      induction alternatives with
      | nil => exact fun _ => rfl
      | cons alternative alternatives ih' =>
        intro index
        cases index with
        | zero => rw [unnamedAlternatives, readAlternative, readAlternative, ih alternative (List.mem_cons_self ..)]
        | succ index =>
          rw [unnamedAlternatives, readAlternative, readAlternative, ih' fun other hm => ih other (List.mem_cons_of_mem _ hm)]
    have hc := constraint_unnamed (choice name alternatives standard)
    rw [unnamed] at hc ⊢
    simp only [read, hc, halternatives]

end Descriptor

/-- Types that differ in names of types read the same values, or fail with the same fault. -/
theorem decode_unnamed {type type' : Descriptor} (h : type.unnamed = type'.unnamed) (settings : Settings) (data : Octets)
    (length : Nat) : decode settings type data length = decode settings type' data length := by
  rw [decode, decode, ← type.read_unnamed, h, type'.read_unnamed]

/-! ## Writing -/

/-- The fault without the words for a type. -/
def Fault.blurred : Fault → Fault
  | .unsupported (.kindMismatch valueKind _) => .unsupported (.kindMismatch valueKind "")
  | .unsupported (.fieldCount entries _ declared) => .unsupported (.fieldCount entries "" declared)
  | fault => fault

section Alike

variable {τ α β : Type}

/-- What an action came to, without the words for a type. -/
def blur : EStateM.Result Fault τ α → EStateM.Result Fault τ α
  | .ok result s => .ok result s
  | .error fault s => .error fault.blurred s

/-- Two actions come to the same, but for the words for a type in a fault. -/
def Alike (m m' : EStateM Fault τ α) : Prop :=
  ∀ s, blur (m s) = blur (m' s)

/-- An action comes to what it comes to. -/
theorem Alike.refl (m : EStateM Fault τ α) : Alike m m :=
  fun _ => rfl

/-- Two runs succeed or fail together. -/
theorem Alike.cases {m m' : EStateM Fault τ α} (h : Alike m m') (s : τ) :
    (∃ result s', m s = .ok result s' ∧ m' s = .ok result s') ∨
      ∃ fault fault' s', m s = .error fault s' ∧ m' s = .error fault' s' ∧ fault.blurred = fault'.blurred := by
  have hs := h s
  cases hm : m s with
  | ok result s' =>
    cases hm' : m' s with
    | ok result' s'' =>
      rw [hm, hm'] at hs
      cases hs
      exact .inl ⟨result, s', rfl, rfl⟩
    | error fault s'' =>
      rw [hm, hm'] at hs
      cases hs
  | error fault s' =>
    cases hm' : m' s with
    | ok result' s'' =>
      rw [hm, hm'] at hs
      cases hs
    | error fault' s'' =>
      rw [hm, hm'] at hs
      obtain ⟨hf, rfl⟩ := EStateM.Result.error.inj hs
      exact .inr ⟨fault, fault', s', rfl, rfl, hf⟩

/-- Actions that are alike are alike one after the other. -/
theorem Alike.bind {m m' : EStateM Fault τ α} {f f' : α → EStateM Fault τ β} (h : Alike m m') (h' : ∀ x, Alike (f x) (f' x)) :
    Alike (m >>= f) (m' >>= f') := by
  intro s
  rw [run_bind, run_bind]
  rcases h.cases s with ⟨x, s', hm, hm'⟩ | ⟨fault, fault', s', hm, hm', hf⟩
  · rw [hm, hm']
    exact h' x s'
  · rw [hm, hm']
    exact congrArg (EStateM.Result.error · s') hf

/-- A choice between actions that are alike is alike. -/
theorem alike_ite {c : Prop} [Decidable c] {m m' n n' : EStateM Fault τ α} (h : Alike m m') (h' : Alike n n') :
    Alike (if c then m else n) (if c then m' else n') := by
  split
  · exact h
  · exact h'

/-- A change of the state after actions that are alike leaves them alike. -/
theorem Alike.afterwards {m m' : EStateM Fault τ α} (h : Alike m m') (change : τ → τ) :
    Alike (afterwards change m) (afterwards change m') := by
  intro s
  unfold UnalignedPer.afterwards
  rcases h.cases s with ⟨x, s', hm, hm'⟩ | ⟨fault, fault', s', hm, hm', hf⟩
  · rw [hm, hm']
  · rw [hm, hm']
    exact congrArg (EStateM.Result.error · (change s')) hf

/-- Chunks of units are written alike if the units are. -/
theorem alike_packFree [BitSink τ] {emit emit' : Nat → Nat → Packer τ Unit}
    (h : ∀ offset count, Alike (emit offset count) (emit' offset count)) (offset rest : Nat) :
    Alike (SizedContent.packFree emit offset rest) (SizedContent.packFree emit' offset rest) := by
  induction rest using Nat.strongRecOn generalizing offset with
  | _ rest ih =>
    rw [SizedContent.packFree.eq_def emit, SizedContent.packFree.eq_def emit']
    refine (Alike.refl _).bind fun _ => (h _ _).bind fun _ => ?_
    split
    · exact Alike.refl _
    · rename_i hlast
      have := LengthDeterminant.covered_bounds rest hlast
      exact ih _ (by omega) _

/-- Contents of a bounded size are alike if what is written of their units is. -/
theorem alike_pack [BitSink τ] {emit emit' : Nat → Nat → Packer τ Unit}
    (h : ∀ offset count, Alike (emit offset count) (emit' offset count)) (size : Bounds Nat) (extensible : Bool) (count : Nat) :
    Alike (SizedContent.pack size extensible count emit) (SizedContent.pack size extensible count emit') := by
  have hroot : Alike (SizedContent.packRoot size count emit) (SizedContent.packRoot size count emit') :=
    alike_ite (Alike.refl _) (alike_ite (h 0 count) (alike_ite ((Alike.refl _).bind fun _ => h 0 count)
      (alike_packFree h 0 count)))
  unfold SizedContent.pack
  refine alike_ite ?_ (alike_ite ((Alike.refl _).bind fun _ => alike_packFree h 0 count) (Alike.refl _))
  cases extensible
  · exact hroot
  · exact (Alike.refl _).bind fun _ => hroot

end Alike

namespace Writer

variable {m m' : WriterM Unit}

/-- Open types are alike if their contents are. -/
theorem alike_inOpenType (h : Alike m m') : Alike (inOpenType m) (inOpenType m') := by
  intro w
  unfold inOpenType
  rcases h.cases { w with buffer := .empty, presence := none } with ⟨_, w', hm, hm'⟩ | ⟨fault, fault', w', hm, hm', hf⟩
  · simp only [hm, hm']
  · simp only [hm, hm']
    exact congrArg (EStateM.Result.error · _) hf

/-- Contents are alike in open types and outside of them. -/
theorem alike_withContent (openType : Bool) (h : Alike m m') : Alike (withContent openType m) (withContent openType m') :=
  alike_ite (alike_inOpenType h) h

/-- Containers are alike if their contents are. -/
theorem alike_container (h : Alike m m') : Alike (container m) (container m') := by
  refine (Alike.refl _).bind fun openType => (Alike.refl _).bind fun w => alike_ite (Alike.refl _) ?_
  exact (Alike.refl _).bind fun _ => (alike_withContent openType h).afterwards _

/-- Contents are alike under any presence bits. -/
theorem alike_withPresence (presence : Option Presence) (h : Alike m m') :
    Alike (withPresence presence m) (withPresence presence m') :=
  fun w => h.afterwards (fun w' => { w' with presence := w.presence }) { w with presence := presence }

/-- Sequences are alike if their fields are. -/
theorem alike_sequence (c : Constraint) (h : Alike m m') : Alike (sequence c m) (sequence c m') := by
  refine alike_container ((Alike.refl _).bind fun _ => (Alike.refl _).bind fun _ => Alike.afterwards ?_ _)
  exact alike_withPresence _ (h.bind fun _ => Alike.refl _)

/-- The elements of two lists, from some index on, are alike if they are one by one. -/
theorem alike_elements {element element' : Nat → WriterM Unit} (h : ∀ index, Alike (element index) (element' index))
    (index count : Nat) : Alike (elements element index count) (elements element' index count) := by
  induction count generalizing index with
  | zero => exact Alike.refl _
  | succ count ih => exact (h index).bind fun _ => ih (index + 1)

/-- Lists are alike if their elements are. -/
theorem alike_sequenceOf (c : Constraint) (count : Nat) {element element' : Nat → WriterM Unit}
    (h : ∀ index, Alike (element index) (element' index)) : Alike (sequenceOf c count element) (sequenceOf c count element') :=
  alike_container ((Alike.refl _).bind fun _ => alike_withPresence _ (alike_pack (alike_elements h) _ _ _))

/-- Choices of the same alternative are alike if their payloads are. -/
theorem alike_choice (c : Constraint) (alternative : UInt64) (h : Alike m m') :
    Alike (choice c alternative m) (choice c alternative m') :=
  alike_container ((Alike.refl _).bind fun _ => (Alike.refl _).bind fun _ => alike_withPresence _ (alike_withContent _ h))

/-- Optional fields are alike if what they hold is. -/
theorem alike_opt (present : Bool) (h : Alike m m') : Alike (opt present m) (opt present m') := by
  refine (Alike.refl _).bind fun openType => alike_ite ((Alike.refl _).bind fun _ => h.afterwards _) (Alike.refl _)

end Writer

namespace Descriptor

/-- A value of another kind is refused in the same way. -/
theorem alike_refuse (type type' : Descriptor) (value : Value) : Alike (type.refuse value) (type'.refuse value) :=
  fun _ => rfl

/-- A value without parts is written alike under types with the same constraint. -/
theorem alike_writeSimple {type type' : Descriptor} (h : type.constraint = type'.constraint) (plain : SimpleType) (value : Value) :
    Alike (type.writeSimple plain value) (type'.writeSimple plain value) := by
  unfold writeSimple
  rw [h]
  split
  case h_7 => exact alike_refuse _ _ _
  all_goals exact Alike.refl _

/-- A value is written the same without names. -/
theorem alike_write_unnamed (type : Descriptor) : ∀ value, Alike (type.unnamed.write value) (type.write value) := by
  induction type using Descriptor.induction with
  | simple name plain extensible =>
    have hsame : (simple "" plain extensible).constraint = (simple name plain extensible).constraint := rfl
    exact fun value => alike_writeSimple hsame plain value
  | enumerated name items standard =>
    intro value
    cases value
    case enumerated => exact Alike.refl _
    all_goals exact alike_refuse _ _ _
  | sequence name fields standard ih =>
    have hfields : ∀ entries, Alike (writeFields (unnamedFields fields) entries) (writeFields fields entries) := by
      clear name standard
      induction fields with
      | nil => exact fun _ => Alike.refl _
      | cons field fields ih' =>
        intro entries
        cases entries with
        | nil => exact Alike.refl _
        | cons entry entries =>
          rw [unnamedFields, writeFields, writeFields]
          refine Alike.bind ?_ fun _ => ih' (fun other hm => ih other (List.mem_cons_of_mem _ hm)) entries
          refine alike_ite ?_ ?_
          · cases entry with
            | none => exact Alike.refl _
            | some value => exact Writer.alike_opt true (ih field (List.mem_cons_self ..) value)
          · cases entry with
            | none => exact Alike.refl _
            | some value => exact ih field (List.mem_cons_self ..) value
    have hc := constraint_unnamed (sequence name fields standard)
    rw [unnamed] at hc ⊢
    intro value
    cases value
    case sequence entries =>
      rw [write, write, hc, length_unnamedFields]
      exact alike_ite (fun _ => rfl) (Writer.alike_sequence _ (hfields entries))
    all_goals exact alike_refuse _ _ _
  | sequenceOf name element size extensible ih =>
    intro value
    cases value
    case sequenceOf elements =>
      refine Writer.alike_sequenceOf _ _ fun index => ?_
      unfold writeElement
      split
      · exact ih _
      · exact Alike.refl _
    all_goals exact alike_refuse _ _ _
  | choice name alternatives standard ih =>
    have halternatives : ∀ index value,
        Alike (writeAlternative (unnamedAlternatives alternatives) index value) (writeAlternative alternatives index value) := by
      clear name standard
      induction alternatives with
      | nil => exact fun _ _ => Alike.refl _
      | cons alternative alternatives ih' =>
        intro index value
        cases index with
        | zero => exact ih alternative (List.mem_cons_self ..) value
        | succ index => exact ih' (fun other hm => ih other (List.mem_cons_of_mem _ hm)) index value
    have hc := constraint_unnamed (choice name alternatives standard)
    rw [unnamed] at hc ⊢
    intro value
    cases value
    case choice index payload =>
      cases payload with
      | none => exact Alike.refl _
      | some payload =>
        simp only [write, hc]
        exact Writer.alike_choice _ _ (halternatives _ _)
    all_goals exact alike_refuse _ _ _

end Descriptor

/-- What is known of an encoding without the words for a type in a fault. -/
def blurEncoding : Except Fault Encoding × Array String → Except Fault Encoding × Array String
  | (result, trace) => (result.mapError Fault.blurred, trace)

/-- Types that differ in names of types give the same bits, or the same fault but for the words for the type. -/
theorem encode_unnamed {type type' : Descriptor} (h : type.unnamed = type'.unnamed) (settings : Settings) (value : Value) :
    blurEncoding (encode settings type value) = blurEncoding (encode settings type' value) := by
  have hwrite : Alike (type.write value) (type'.write value) := fun w => by
    rw [← type.alike_write_unnamed value w, h, type'.alike_write_unnamed value w]
  unfold encode
  rcases hwrite.cases (.ofSettings settings) with ⟨_, w, hm, hm'⟩ | ⟨fault, fault', w, hm, hm', hf⟩
  · rw [hm, hm']
  · rw [hm, hm']
    exact congrArg (fun fault => (Except.error fault, w.trace)) hf

end UnalignedPer
