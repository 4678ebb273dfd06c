import Mathlib.Data.List.Forall2
import UnalignedPer.Proofs.Message.AdmissionContainers
import UnalignedPer.Proofs.Message.ReadingEntries

/-!
# What a reader lets through along a type

A property of the values of a type may depend on how deep a value lies. If it passes from the parts of a value to the value
(`Descriptor.Inherited`), it holds of everything that is read as a value of the type (`Descriptor.admitsField_read`).
-/

namespace UnalignedPer

namespace Descriptor

open Reader (Admits AdmitsField)

variable {room depth : Nat} {settings : Settings} {P : Descriptor → Nat → Value → Prop}

/-- The entry of a field has a property, or is missing where the field is OPTIONAL. -/
def EntryHas (P : Descriptor → Nat → Value → Prop) (depth : Nat) (field : Field Descriptor) : Option Value → Prop
  | some value => P field.type depth value
  | none => field.optional = true

/-- A property that values have if their parts have it, whatever they are read from. -/
structure Inherited (room : Nat) (settings : Settings) (P : Descriptor → Nat → Value → Prop) : Prop where
  /-- Values without parts. -/
  simple : ∀ name plain extensible depth, (simple name plain extensible).ordered = true → depth ≤ settings.maxDepth →
    AdmitsField room depth settings (readSimple (.simple name plain extensible) plain) (P (.simple name plain extensible) depth)
  /-- Items. -/
  enumerated : ∀ name items standard depth (index : UInt64), depth ≤ settings.maxDepth → index.toNat < items.length →
    P (.enumerated name items standard) depth (.enumerated index)
  /-- Sequences of such entries. -/
  sequence : ∀ name fields standard depth entries, depth < settings.maxDepth →
    List.Forall₂ (EntryHas P (depth + 1)) fields entries → P (.sequence name fields standard) depth (.sequence entries)
  /-- Lists of such elements. -/
  sequenceOf : ∀ name element size extensible depth found, depth < settings.maxDepth →
    Reader.Listed (Descriptor.sequenceOf name element size extensible).constraint settings
      (fun entry => ∃ value, entry = some value ∧ P element (depth + 1) value) found →
        P (.sequenceOf name element size extensible) depth (.sequenceOf found.toList)
  /-- Choices of such a value. -/
  choice : ∀ name alternatives standard depth (index : UInt64) alternative value, depth < settings.maxDepth →
    alternatives[index.toNat]? = some alternative → P alternative.2 (depth + 1) value →
      P (.choice name alternatives standard) depth (.choice index (some value))

/-- Fields are read in order. -/
theorem admits_readFields (fields : List (Field Descriptor))
    (h : ∀ field ∈ fields, AdmitsField room depth settings field.type.read (P field.type depth)) :
    Admits room depth settings (readFields fields) (List.Forall₂ (EntryHas P depth) fields) := by
  induction fields with
  | nil => exact Reader.admits_pure .nil
  | cons field fields ih =>
    have hfirst := h field (List.mem_cons_self ..)
    have hentry : Admits room depth settings (readEntry field.optional field.type) (EntryHas P depth field) := by
      unfold readEntry
      cases ho : field.optional with
      | false =>
        rw [if_neg Bool.false_ne_true]
        exact (hfirst.map some fun value hv => hv).admits
      | true =>
        rw [if_pos rfl]
        refine (Reader.admits_opt hfirst).weaken fun entry he => ?_
        cases entry with
        | none => exact ho
        | some value => exact he value rfl
    rw [readFields_cons]
    refine hentry.bind fun entry he => (ih fun f hf => h f (List.mem_cons_of_mem _ hf)).bind fun entries hes => ?_
    exact Reader.admits_pure (.cons he hes)

/-- The value of an alternative. -/
theorem admitsField_alternative {alternatives : List (String × Descriptor)}
    (h : ∀ alternative ∈ alternatives, AdmitsField room depth settings alternative.2.read (P alternative.2 depth))
    {index : Nat} (hi : index < alternatives.length) :
    AdmitsField room depth settings (readAlternative alternatives index) fun payload =>
      ∃ alternative value, alternatives[index]? = some alternative ∧ payload = some value ∧ P alternative.2 depth value := by
  induction alternatives generalizing index with
  | nil => exact absurd hi (Nat.not_lt_zero _)
  | cons alternative alternatives ih =>
    cases index with
    | zero => exact (h alternative (List.mem_cons_self ..)).map some fun value hv => ⟨alternative, value, rfl, rfl, hv⟩
    | succ index => exact ih (fun a ha => h a (List.mem_cons_of_mem _ ha)) (Nat.lt_of_succ_lt_succ hi)

/-- A value of a type has what passes from its parts to it. -/
theorem admitsField_read (h : Inherited room settings P) (type : Descriptor) (ho : type.everywhere ordered = true) :
    ∀ depth, depth ≤ settings.maxDepth → AdmitsField room depth settings type.read (P type depth) := by
  induction type using Descriptor.induction with
  | simple name plain extensible => exact fun depth hd => h.simple name plain extensible depth ho hd
  | enumerated name items standard =>
    intro depth hd
    obtain ⟨c, hc⟩ : ∃ c, c = (Descriptor.enumerated name items standard).constraint := ⟨_, rfl⟩
    have hitem : AdmitsField room depth settings (Reader.enumerated c) fun item => item.toNat < c.count :=
      Reader.admitsField_field (Reader.admits_index c)
    rw [hc] at hitem
    exact hitem.bind fun item hi => Reader.admits_pure (h.enumerated name items standard depth item hd hi)
  | sequence name fields standard ih =>
    intro depth hd
    have hparts : ∀ field ∈ fields, ∀ depth, depth ≤ settings.maxDepth →
        AdmitsField room depth settings field.type.read (P field.type depth) := fun field hm =>
      ih field hm ((everywhere_sequence.mp ho).2 field hm)
    refine (Reader.admitsField_sequence _ fun hlt =>
      admits_readFields fields fun field hm => hparts field hm _ hlt).bind fun entries he => ?_
    exact Reader.admits_pure (h.sequence name fields standard depth entries he.1 he.2)
  | sequenceOf name element size extensible ih =>
    intro depth hd
    have helement := ih (everywhere_sequenceOf.mp ho).2
    have hentry : depth < settings.maxDepth → Nat → AdmitsField room (depth + 1) settings (some <$> element.read)
        fun entry => ∃ value, entry = some value ∧ P element (depth + 1) value := by
      intro hlt _
      exact (helement (depth + 1) hlt).map some fun value hv => ⟨value, rfl, hv⟩
    have hsize := size_ordered (of_everywhere ho)
    exact (Reader.admitsField_sequenceOf _ hsize hentry).bind fun found hfound =>
      Reader.admits_pure (h.sequenceOf name element size extensible depth found hfound.1 hfound.2)
  | choice name alternatives standard ih =>
    intro depth hd
    have hparts : ∀ alternative ∈ alternatives, ∀ depth, depth ≤ settings.maxDepth →
        AdmitsField room depth settings alternative.2.read (P alternative.2 depth) := fun alternative hm =>
      ih alternative hm ((everywhere_choice.mp ho).2 alternative hm)
    have hpayload : depth < settings.maxDepth → ∀ index : UInt64,
        index.toNat < (choice name alternatives standard).constraint.count →
          AdmitsField room (depth + 1) settings (readAlternative alternatives index.toNat) fun payload =>
            ∃ alternative value, alternatives[index.toNat]? = some alternative ∧ payload = some value ∧
              P alternative.2 (depth + 1) value :=
      fun hlt index hi => admitsField_alternative (fun alternative hm => hparts alternative hm (depth + 1) hlt) hi
    refine (Reader.admitsField_choice _ hpayload).bind ?_
    rintro ⟨index, payload⟩ ⟨hlt, -, alternative, value, ha, rfl, hv⟩
    exact Reader.admits_pure (h.choice name alternatives standard depth index alternative value hlt ha hv)

end Descriptor

/-- What is decoded as a value of a type has what passes from the parts of a value to the value. -/
theorem Descriptor.Inherited.decode {settings : Settings} {type : Descriptor} {data : Octets} {length : Nat} {found : Decoding}
    {P : Descriptor → Nat → Value → Prop} (hi : Inherited (min length (data.size * 8)) settings P)
    (ho : type.everywhere ordered = true) (h : (decode settings type data length).1 = .ok found) : P type 0 found.value := by
  unfold UnalignedPer.decode at h
  cases hm : type.read (.ofView (.ofOctets data length) settings) with
  | ok value r =>
    rw [hm] at h
    cases h
    exact (admitsField_read hi type ho 0 (Nat.zero_le _) (Nat.le_refl _) rfl rfl hm).1
  | error fault r =>
    rw [hm] at h
    cases h

end UnalignedPer
