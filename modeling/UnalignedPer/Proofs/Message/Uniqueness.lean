import UnalignedPer.Proofs.Message.Encoding
import UnalignedPer.Proofs.Message.Reading

/-!
# Bits tell their value

No form of a value begins the form of another one: two values of a type whose forms stand in front of the same bits are the same
(`Descriptor.telling`). So what is encoded tells its value, whatever settings it was encoded under.

Forms are put together from parts, and where the first parts agree the second ones stand at the same place; `Bits.Tells` says so
and chains. The length determinants, presence bits and indices come before what they decide about.
-/

namespace UnalignedPer

namespace Bits

/-- Where two runs stand in front of the same bits, something is known and they end at the same place. -/
def Tells (u v : List Bool) (P : Prop) : Prop :=
  ∀ ⦃x y⦄, u ++ x = v ++ y → P ∧ x = y

theorem Tells.weaken {u v : List Bool} {P Q : Prop} (h : Tells u v P) (h' : P → Q) : Tells u v Q :=
  fun _ _ heq => ⟨h' (h heq).1, (h heq).2⟩

/-- Two runs that end at the same place are the same. -/
theorem Tells.eq {u v : List Bool} {P : Prop} (h : Tells u v P) : Tells u v (u = v) := by
  intro x y heq
  obtain ⟨-, rfl⟩ := h heq
  exact ⟨List.append_cancel_right heq, rfl⟩

/-- What is known of two runs that are the same. -/
theorem Tells.of_eq {u v : List Bool} {P : Prop} (h : Tells u v P) (heq : u = v) : P :=
  (h (congrArg (· ++ []) heq)).1

theorem tells_nil {P : Prop} (h : P) : Tells [] [] P :=
  fun _ _ heq => ⟨h, heq⟩

/-- Runs of one length. -/
theorem tells_of_length {u v : List Bool} (h : u.length = v.length) : Tells u v (u = v) :=
  fun _ _ heq => List.append_inj heq h

/-- One run after another; the second one may be judged by what the first one tells. -/
theorem Tells.append {u v u' v' : List Bool} {P Q : Prop} (h : Tells u v P) (h' : P → Tells u' v' Q) :
    Tells (u ++ u') (v ++ v') (P ∧ Q) := by
  intro x y heq
  rw [List.append_assoc, List.append_assoc] at heq
  obtain ⟨hp, hrest⟩ := h heq
  obtain ⟨hq, hxy⟩ := h' hp hrest
  exact ⟨⟨hp, hq⟩, hxy⟩

/-- What is read back from any bits that begin with it tells what it is. -/
theorem tells_of_takes {α : Type} {m : ReaderM α} {u v : List Bool} {a b : α}
    (ha : ∀ s, Unpacker.Takes s m u a) (hb : ∀ s, Unpacker.Takes s m v b) : Tells u v (a = b) := by
  intro x y heq
  obtain ⟨s, hs⟩ : ∃ s : Reader, LawfulBitSource.ahead s = u ++ x := by
    refine ⟨.ofView ⟨Octets.ofBits (u ++ x), 0, (u ++ x).length⟩ .standard, ?_⟩
    refine (Octets.bitsFrom_ofBits _ _ _ (Nat.le_of_eq (Nat.zero_add _))).trans ?_
    rw [List.drop_zero]
    exact List.take_length
  obtain ⟨s1, hm, hmoved⟩ := ha s (hs ▸ List.prefix_append _ _)
  obtain ⟨s2, hm', hmoved'⟩ := hb s (by rw [hs, heq]; exact List.prefix_append _ _)
  rw [hm] at hm'
  cases hm'
  -- both ends are the same, and so is what is ahead of them
  have hx := LawfulBitSource.ahead_of_moved hmoved
  have hy := LawfulBitSource.ahead_of_moved hmoved'
  rw [hs, List.drop_left] at hx
  rw [hs, heq, List.drop_left] at hy
  exact ⟨rfl, hx.symm.trans hy⟩

/-- Units of two lists of one length, each of which can be told from the others. -/
theorem tells_flatten {us vs : List (List Bool)} (hl : us.length = vs.length) (h : ∀ u ∈ us, ∀ v ∈ vs, Tells u v (u = v)) :
    Tells us.flatten vs.flatten (us = vs) := by
  induction us generalizing vs with
  | nil =>
    obtain rfl := List.eq_nil_of_length_eq_zero hl.symm
    exact tells_nil rfl
  | cons u us ih =>
    cases vs with
    | nil => cases hl
    | cons v vs =>
      have hfirst := h u (List.mem_cons_self ..) v (List.mem_cons_self ..)
      have hrest := ih (Nat.succ.inj hl) fun a ha b hb => h a (List.mem_cons_of_mem _ ha) b (List.mem_cons_of_mem _ hb)
      rw [List.flatten_cons, List.flatten_cons]
      exact (hfirst.append fun _ => hrest).weaken fun hp => by rw [hp.1, hp.2]

/-- Whole octets tell the run they divide. -/
theorem eq_of_octets_eq {a b : List Bool} (ha : a.length % 8 = 0) (hb : b.length % 8 = 0) (h : octets a = octets b) : a = b := by
  have hall : ∀ bits : List Bool, bits.length % 8 = 0 → (octets bits).flatten = bits := by
    intro bits hbits
    have hflat := flatten_octets bits 0 (bits.length / 8) (Nat.le_of_eq (Nat.zero_add _))
    rw [List.drop_zero, Nat.zero_mul, List.drop_zero, List.take_of_length_le (Nat.le_of_eq (length_octets bits)),
      List.take_of_length_le (by omega)] at hflat
    exact hflat
  rw [← hall a ha, ← hall b hb, h]

theorem eq_of_singles_eq {a b : List Bool} (h : singles a = singles b) : a = b :=
  List.map_injective_iff.mpr (fun _ _ heq => (List.cons.inj heq).1) h

end Bits

open Bits (Tells tells_of_takes tells_of_length tells_nil)

namespace SizedContent

open LengthDeterminant

variable {us vs : List (List Bool)}

/-- The units that the first determinant covers, and what is behind them. -/
theorem fragments_eq (units : List (List Bool)) :
    fragments units = freeForm units.length ++ ((units.take (covered units.length)).flatten ++
      if units.length < fragmentUnit then [] else fragments (units.drop (covered units.length))) := by
  rw [fragments, chunks]
  by_cases h : units.length < fragmentUnit
  · rw [dif_pos h, if_pos h]
  · rw [dif_neg h, if_neg h, fragments, List.length_drop]

theorem tells_freeForm (n m : Nat) : Tells (freeForm n) (freeForm m) (chunkOf n = chunkOf m) :=
  tells_of_takes (fun s => takes_unpackFree s n) fun s => takes_unpackFree s m

/-- Determinants tell where the units end, chunk by chunk. -/
theorem tells_fragments (h : ∀ u ∈ us, ∀ v ∈ vs, Tells u v (u = v)) : Tells (fragments us) (fragments vs) (us = vs) := by
  induction us using chunks.induct generalizing vs with
  | case1 us ih =>
    rw [fragments_eq us, fragments_eq vs]
    refine ((tells_freeForm us.length vs.length).append fun hchunk => ?_).weaken And.right
    have hcovered : covered us.length = covered vs.length := congrArg Chunk.units hchunk
    have hlast : us.length < fragmentUnit ↔ vs.length < fragmentUnit := by
      have hfrag := congrArg Chunk.isFragment hchunk
      have hiff : fragmentUnit ≤ us.length ↔ fragmentUnit ≤ vs.length := by
        rw [← isFragment_chunkOf, ← isFragment_chunkOf, hfrag]
      omega
    have htake : Tells (us.take (covered us.length)).flatten (vs.take (covered vs.length)).flatten
        (us.take (covered us.length) = vs.take (covered vs.length)) := by
      refine Bits.tells_flatten ?_ fun u hu v hv => h u (List.mem_of_mem_take hu) v (List.mem_of_mem_take hv)
      rw [List.length_take_of_le (covered_le _), List.length_take_of_le (covered_le _), hcovered]
    by_cases hus : us.length < fragmentUnit
    · rw [if_pos hus, if_pos (hlast.mp hus), List.append_nil, List.append_nil]
      refine htake.weaken fun heq => ?_
      rwa [covered_of_lt hus, covered_of_lt (hlast.mp hus), List.take_length, List.take_length] at heq
    · rw [if_neg hus, if_neg (mt hlast.mpr hus)]
      have hdrop := ih hus fun u hu v hv => h u (List.mem_of_mem_drop hu) v (List.mem_of_mem_drop (i := covered vs.length) hv)
      refine (htake.append fun _ => hdrop).weaken fun hp => ?_
      rw [← List.take_append_drop (covered us.length) us, hp.1, hp.2, List.take_append_drop]

/-- The bounds or the determinants tell how many units there are. -/
theorem tells_rootForm {size : Bounds Nat} (hu : inRoot size us.length = true) (hv : inRoot size vs.length = true)
    (h : ∀ u ∈ us, ∀ v ∈ vs, Tells u v (u = v)) : Tells (rootForm size us) (rootForm size vs) (us = vs) := by
  have hus := (inRoot_iff size us.length).mp hu
  have hvs := (inRoot_iff size vs.length).mp hv
  unfold rootForm
  by_cases h0 : size.upper = some 0
  · rw [if_pos h0, if_pos h0]
    refine tells_nil ?_
    rw [List.eq_nil_of_length_eq_zero (Nat.le_zero.mp (hus.2 0 h0)), List.eq_nil_of_length_eq_zero (Nat.le_zero.mp (hvs.2 0 h0))]
  rw [if_neg h0, if_neg h0]
  by_cases hf : (fixedSize size).isSome = true
  · rw [if_pos hf, if_pos hf]
    refine Bits.tells_flatten ?_ h
    obtain ⟨count, hcount⟩ := Option.isSome_iff_exists.mp hf
    obtain ⟨hlower, hupper⟩ := fixedSize_eq_some hcount
    have hle := hus.2 count hupper
    have hle' := hvs.2 count hupper
    rw [hlower, Option.getD_some] at hus hvs
    exact Nat.le_antisymm (Nat.le_trans hle hvs.1) (Nat.le_trans hle' hus.1)
  rw [if_neg hf, if_neg hf]
  cases hb : boundedUpper size with
  | none => exact tells_fragments h
  | some upper =>
    have hupper := (boundedUpper_eq_some hb).1
    have hoffset : Tells (Bits.offset (size.lower.getD 0 : Nat) upper us.length)
        (Bits.offset (size.lower.getD 0 : Nat) upper vs.length) (us.length = vs.length) :=
      (tells_of_takes (fun s => LengthDeterminant.takes_unpack s hb hus.1 (hus.2 upper hupper))
        fun s => LengthDeterminant.takes_unpack s hb hvs.1 (hvs.2 upper hupper)).weaken (congrArg Chunk.units)
    exact (hoffset.append fun hl => Bits.tells_flatten hl h).weaken And.right

/-- A sized content tells its units if its units can be told from each other. -/
theorem tells_form {size : Bounds Nat} {extensible : Bool} (hu : extensible = true ∨ inRoot size us.length = true)
    (hv : extensible = true ∨ inRoot size vs.length = true) (h : ∀ u ∈ us, ∀ v ∈ vs, Tells u v (u = v)) :
    Tells (form size extensible us) (form size extensible vs) (us = vs) := by
  unfold form
  cases extensible with
  | false =>
    have hu' := hu.resolve_left Bool.false_ne_true
    have hv' := hv.resolve_left Bool.false_ne_true
    rw [if_pos hu', if_pos hv']
    exact tells_rootForm hu' hv' h
  | true =>
    -- the first bit tells on which side of the bounds the size lies
    have hbit : ∀ {a b : Bool} {u v : List Bool} {P : Prop}, (a = b → Tells u v P) → Tells (a :: u) (b :: v) P :=
      fun {a b u v P} h' => ((tells_of_length (u := [a]) (v := [b]) rfl).append fun heq => h' (List.cons.inj heq).1).weaken And.right
    by_cases hu' : inRoot size us.length = true
    · by_cases hv' : inRoot size vs.length = true
      · rw [if_pos hu', if_pos hv']
        exact hbit fun _ => tells_rootForm hu' hv' h
      · rw [if_pos hu', if_neg hv']
        exact hbit nofun
    · by_cases hv' : inRoot size vs.length = true
      · rw [if_neg hu', if_pos hv']
        exact hbit nofun
      · rw [if_neg hu', if_neg hv']
        exact hbit fun _ => tells_fragments h

end SizedContent

/-- An open type tells what is known of its content; it does not tell where the content ends. -/
theorem OpenType.tells_form {u v : List Bool} {P : Prop} (h : Tells u v P) : Tells (form u) (form v) P := by
  have hoctets : ∀ o ∈ Bits.octets (padded u), ∀ o' ∈ Bits.octets (padded v), Tells o o' (o = o') :=
    fun o ho o' ho' => tells_of_length ((Bits.length_of_mem_octets ho).trans (Bits.length_of_mem_octets ho').symm)
  refine (SizedContent.tells_fragments hoctets).weaken fun heq => ?_
  have hpadded : padded u = padded v :=
    Bits.eq_of_octets_eq (by rw [length_padded]; omega) (by rw [length_padded]; omega) heq
  exact (h hpadded).1

/-- A bit string tells its bits. -/
theorem BitString.tells_form {size : Bounds Nat} {extensible : Bool} {a b : BitString} (ha : a.covered = true)
    (hb : b.covered = true) (hsa : extensible = true ∨ SizedContent.inRoot size a.length.toNat = true)
    (hsb : extensible = true ∨ SizedContent.inRoot size b.length.toNat = true) :
    Tells (form size extensible a) (form size extensible b) (a.same b = true) := by
  have hsingles : ∀ u ∈ Bits.singles a.toList, ∀ v ∈ Bits.singles b.toList, Tells u v (u = v) := by
    intro u hu v hv
    obtain ⟨_, _, rfl⟩ := List.mem_map.mp hu
    obtain ⟨_, _, rfl⟩ := List.mem_map.mp hv
    exact tells_of_length rfl
  refine (SizedContent.tells_form (by rwa [Bits.length_singles, length_toList])
    (by rwa [Bits.length_singles, length_toList]) hsingles).weaken fun heq => ?_
  have hlist : a.toList = b.toList := Bits.eq_of_singles_eq heq
  have hlength : a.length = b.length := by
    rw [← UInt64.toNat_inj, ← length_toList a, ← length_toList b, hlist]
  have hcov := of_decide_eq_true ha
  have hcov' := of_decide_eq_true hb
  have hcount := toNat_octetCount_le a.length
  rw [toList, toList, ← hlength] at hlist
  rw [← hlength] at hcov'
  simp only [same, hlength, Octets.agreeOn_eq, Bool.and_eq_true, decide_eq_true_eq, beq_self_eq_true, true_and]
  rw [← hlength]
  simp only [Octets.countFor] at hcount
  exact ⟨⟨by omega, by omega⟩, hlist⟩

namespace Descriptor

/-- Two values of a type can be told from each other by their forms. -/
def Telling (type : Descriptor) : Prop :=
  ∀ a b, type.conforms a = true → type.conforms b = true → Tells (type.bits a) (type.bits b) (a.same b = true)

theorem telling_simple (name : String) (plain : SimpleType) (extensible : Bool) : (simple name plain extensible).Telling := by
  intro a b ha hb
  -- of the kinds of values only that of the type remains
  cases plain <;> cases a <;> first
    | exact absurd ha Bool.false_ne_true
    | cases b <;> first
      | exact absurd hb Bool.false_ne_true
      | skip
  case null.null.null => exact tells_nil rfl
  case boolean.boolean.boolean a b =>
    have hbit : Tells [a] [b] ([a] = [b]) := tells_of_length rfl
    exact hbit.weaken fun heq => beq_iff_eq.mpr (List.cons.inj heq).1
  case integer.integer.integer range a b =>
    exact (tells_of_takes (fun s => WholeNumber.takes_unpackInteger s (Bool.or_eq_true_iff.mp ha))
      fun s => WholeNumber.takes_unpackInteger s (Bool.or_eq_true_iff.mp hb)).weaken beq_iff_eq.mpr
  case octetString.octets.octets size a b =>
    have htakes : ∀ (data : Octets), (simple name (.octetString size) extensible).conforms (.octets data) = true → ∀ s : Reader,
        Unpacker.Takes s (OctetString.unpack _ _ none) ((simple name (.octetString size) extensible).bits (.octets data)) data :=
      fun data h s => OctetString.takes_unpack s nofun (Bool.or_eq_true_iff.mp h)
    exact (tells_of_takes (htakes a ha) (htakes b hb)).weaken beq_iff_eq.mpr
  case bitString.bits.bits size a b =>
    obtain ⟨hca, ha'⟩ := Bool.and_eq_true_iff.mp ha
    obtain ⟨hcb, hb'⟩ := Bool.and_eq_true_iff.mp hb
    exact BitString.tells_form hca hcb (Bool.or_eq_true_iff.mp ha') (Bool.or_eq_true_iff.mp hb')
  case text.text.text alphabet size a b =>
    have htakes : ∀ (data : Octets), (simple name (.text alphabet size) extensible).conforms (.text data) = true →
        ∀ s : Reader, Unpacker.Takes s (CharacterString.unpack alphabet
          (simple name (.text alphabet size) extensible).constraint.size extensible none)
          ((simple name (.text alphabet size) extensible).bits (.text data)) data := by
      intro data h s
      obtain ⟨hlegal, hsize⟩ := Bool.and_eq_true_iff.mp h
      rw [Bool.or_eq_true_iff, Bool.or_eq_true_iff, beq_iff_eq, or_assoc] at hsize
      exact CharacterString.takes_unpack s hlegal nofun hsize
    exact (tells_of_takes (htakes a ha) (htakes b hb)).weaken beq_iff_eq.mpr

/-- Presence bits and forms of fields in a row tell their entries: where the presence bits agree, the same fields are present. -/
theorem tells_bodies (extension : Bool) {fields : List (Field Descriptor)} (h : ∀ field ∈ fields, field.type.Telling)
    {as bs : List (Option Value)} (ha : fieldsConform fields as = true) (hb : fieldsConform fields bs = true)
    (hm : Part.marks extension (parts fields as) = Part.marks extension (parts fields bs)) :
    Tells (Part.bodies extension (parts fields as)) (Part.bodies extension (parts fields bs)) (Value.sameList as bs = true) := by
  induction fields generalizing as bs with
  | nil =>
    rw [List.eq_nil_of_length_eq_zero (length_of_fieldsConform ha), List.eq_nil_of_length_eq_zero (length_of_fieldsConform hb)]
    exact tells_nil rfl
  | cons field fields ih =>
    cases as with
    | nil => exact absurd ha Bool.false_ne_true
    | cons a as =>
      cases bs with
      | nil => exact absurd hb Bool.false_ne_true
      | cons b bs =>
        rw [fieldsConform_cons, Bool.and_eq_true] at ha hb
        have hmark : Part.mark extension ⟨field.optional, a.map field.type.bits⟩ =
              Part.mark extension ⟨field.optional, b.map field.type.bits⟩ ∧
            Part.marks extension (parts fields as) = Part.marks extension (parts fields bs) := by
          refine List.append_inj hm ?_
          unfold Part.mark
          split <;> rfl
        have hrest := ih (fun f hf => h f (List.mem_cons_of_mem _ hf)) ha.2 hb.2 hmark.2
        have hentry : Tells (Part.body extension ⟨field.optional, a.map field.type.bits⟩)
            (Part.body extension ⟨field.optional, b.map field.type.bits⟩) (Value.sameOption a b = true) := by
          -- a field without a presence bit is there
          have hpresent : a.isSome = b.isSome := by
            by_cases ho : (extension || field.optional) = true
            · simpa [Part.mark, ho] using hmark.1
            · rw [Bool.or_eq_true, not_or, Bool.not_eq_true, Bool.not_eq_true] at ho
              rw [ho.2] at ha hb
              cases a with
              | none => exact absurd ha.1 Bool.false_ne_true
              | some a =>
                cases b with
                | none => exact absurd hb.1 Bool.false_ne_true
                | some b => rfl
          cases a with
          | none =>
            cases b with
            | none => exact tells_nil rfl
            | some b => cases hpresent
          | some a =>
            cases b with
            | none => cases hpresent
            | some b =>
              have hvalue := h field (List.mem_cons_self ..) a b ha.1 hb.1
              cases extension with
              | false => exact hvalue
              | true => exact OpenType.tells_form hvalue
        refine (hentry.append fun _ => hrest).weaken fun hp => ?_
        rw [Value.sameList, hp.1, hp.2, Bool.and_self]

theorem sameList_append {as bs as' bs' : List (Option Value)} (h : Value.sameList as bs = true)
    (h' : Value.sameList as' bs' = true) : Value.sameList (as ++ as') (bs ++ bs') = true := by
  induction as generalizing bs with
  | nil =>
    cases bs with
    | nil => exact h'
    | cons b bs => exact absurd h Bool.false_ne_true
  | cons a as ih =>
    cases bs with
    | nil => exact absurd h Bool.false_ne_true
    | cons b bs =>
      rw [Value.sameList, Bool.and_eq_true] at h
      rw [List.cons_append, List.cons_append, Value.sameList, h.1, ih h.2, Bool.and_self]

/-- Where no field is present there is nothing to tell apart. -/
theorem sameList_absent (fields : List (Field Descriptor)) :
    Value.sameList (fields.map fun _ => none) (fields.map fun _ => none) = true := by
  induction fields with
  | nil => rfl
  | cons field fields ih => rw [List.map_cons, Value.sameList, ih, Bool.and_true, Value.sameOption]

/-- The fields after the extension marker. -/
theorem tells_extensions {fields : List (Field Descriptor)} (h : ∀ field ∈ fields, field.type.Telling)
    {as bs : List (Option Value)} (ha : fieldsConform fields as = true) (hb : fieldsConform fields bs = true)
    (hany : Part.anyPresent (parts fields as) = Part.anyPresent (parts fields bs)) :
    Tells (if Part.anyPresent (parts fields as) then Part.block (parts fields as) else [])
      (if Part.anyPresent (parts fields bs) then Part.block (parts fields bs) else []) (Value.sameList as bs = true) := by
  cases hp : Part.anyPresent (parts fields bs) with
  | false =>
    rw [hp] at hany
    rw [hany, if_neg Bool.false_ne_true, if_neg Bool.false_ne_true, (absent_of_not_anyPresent ha hany).2,
      (absent_of_not_anyPresent hb hp).2]
    exact tells_nil (sameList_absent fields)
  | true =>
    have hlen : (parts fields as).length = (parts fields bs).length := by
      rw [length_parts (length_of_fieldsConform ha), length_parts (length_of_fieldsConform hb)]
    have hmarks : Tells (Part.marks true (parts fields as)) (Part.marks true (parts fields bs))
        (Part.marks true (parts fields as) = Part.marks true (parts fields bs)) :=
      tells_of_length (by rw [Part.length_marks_true, Part.length_marks_true, hlen])
    rw [hany, hp, if_pos rfl, if_pos rfl, Part.block, Part.block, List.append_assoc, List.append_assoc, hlen]
    exact ((tells_of_length rfl).append fun _ => hmarks.append fun hm => tells_bodies true h ha hb hm).weaken fun hall =>
      hall.2.2

/-- A sequence tells its entries: the marker whether there are extensions, the presence bits which fields are there. -/
theorem telling_sequence (name : String) {fields : List (Field Descriptor)} (standard : Option Nat)
    (h : ∀ field ∈ fields, field.type.Telling) : (sequence name fields standard).Telling := by
  intro a b ha hb
  cases a
  case sequence as =>
    cases b
    case sequence bs =>
      have hv := halves name fields standard
      obtain ⟨as, as', rfl, hlas, hlas'⟩ := hv.exists_entries (length_of_fieldsConform ha)
      obtain ⟨bs, bs', rfl, hlbs, hlbs'⟩ := hv.exists_entries (length_of_fieldsConform hb)
      generalize fields.take (rootCount standard fields.length) = root at hv hlas hlbs
      generalize fields.drop (rootCount standard fields.length) = extensions at hv hlas' hlbs'
      have ha' : fieldsConform (root ++ extensions) (as ++ as') = true := hv.all ▸ ha
      have hb' : fieldsConform (root ++ extensions) (bs ++ bs') = true := hv.all ▸ hb
      rw [fieldsConform_append root extensions _ hlas, Bool.and_eq_true] at ha'
      rw [fieldsConform_append root extensions _ hlbs, Bool.and_eq_true] at hb'
      rw [bits_sequence hv hlas, bits_sequence hv hlbs, Part.form, Part.form]
      have hroot : ∀ field ∈ root, field.type.Telling := fun field hf => h field (hv.all ▸ List.mem_append_left _ hf)
      have hadded : ∀ field ∈ extensions, field.type.Telling := fun field hf => h field (hv.all ▸ List.mem_append_right _ hf)
      have hmarker : Tells (if standard.isSome then [Part.anyPresent (parts extensions as')] else [])
          (if standard.isSome then [Part.anyPresent (parts extensions bs')] else [])
          (Part.anyPresent (parts extensions as') = Part.anyPresent (parts extensions bs')) := by
        cases hs : standard with
        | some n =>
          have hbit : Tells [Part.anyPresent (parts extensions as')] [Part.anyPresent (parts extensions bs')] _ :=
            tells_of_length rfl
          exact hbit.weaken fun heq => (List.cons.inj heq).1
        | none =>
          refine tells_nil ?_
          rw [hv.closed hs]
          rfl
      have hmarks : Tells (Part.marks false (parts root as)) (Part.marks false (parts root bs))
          (Part.marks false (parts root as) = Part.marks false (parts root bs)) :=
        tells_of_length (by rw [length_marks_false hlas, length_marks_false hlbs])
      have hall := ((hmarker.append fun _ => hmarks).append fun hm => tells_bodies false hroot ha'.1 hb'.1 hm.2).append
        fun hm => tells_extensions hadded ha'.2 hb'.2 hm.1.1
      exact hall.weaken fun hp => sameList_append hp.1.2 hp.2
    all_goals exact absurd hb Bool.false_ne_true
  all_goals exact absurd ha Bool.false_ne_true

/-- A list tells its elements. -/
theorem telling_sequenceOf (name : String) {element : Descriptor} (size : Bounds Int64) (extensible : Bool)
    (h : element.Telling) : (sequenceOf name element size extensible).Telling := by
  intro a b ha hb
  cases a
  case sequenceOf as =>
    cases b
    case sequenceOf bs =>
      rw [conforms, Bool.and_eq_true, List.all_eq_true, Bool.or_eq_true] at ha hb
      have hunits : ∀ a ∈ as, ∀ b ∈ bs, Tells ((a.map element.bits).getD []) ((b.map element.bits).getD [])
          (Value.sameOption a b = true) := by
        intro a hma b hmb
        have hca := ha.2 a hma
        have hcb := hb.2 b hmb
        rw [Option.any_eq_true] at hca hcb
        obtain ⟨a, rfl, hca⟩ := hca
        obtain ⟨b, rfl, hcb⟩ := hcb
        exact h a b hca hcb
      refine (SizedContent.tells_form (by rw [List.length_map]; exact ha.1) (by rw [List.length_map]; exact hb.1) ?_).weaken ?_
      · intro u hu v hv
        obtain ⟨a, hma, rfl⟩ := List.mem_map.mp hu
        obtain ⟨b, hmb, rfl⟩ := List.mem_map.mp hv
        exact (hunits a hma b hmb).eq
      · -- the units are the same one by one
        intro heq
        clear ha hb
        induction as generalizing bs with
        | nil =>
          obtain rfl : bs = [] := by simpa using heq.symm
          rfl
        | cons a as ih =>
          cases bs with
          | nil => cases heq
          | cons b bs =>
            rw [List.map_cons, List.map_cons, List.cons.injEq] at heq
            have hfirst := (hunits a (List.mem_cons_self ..) b (List.mem_cons_self ..)).of_eq heq.1
            have hrest := ih bs (fun a ha b hb => hunits a (List.mem_cons_of_mem _ ha) b (List.mem_cons_of_mem _ hb)) heq.2
            exact Bool.and_eq_true_iff.mpr ⟨hfirst, hrest⟩
    all_goals exact absurd hb Bool.false_ne_true
  all_goals exact absurd ha Bool.false_ne_true

/-- The index of an alternative or item tells which one it is. -/
theorem tells_index {c : Constraint} (hc : c.count < 2 ^ 64) {i j : UInt64} (hi : i.toNat < c.count) (hj : j.toNat < c.count) :
    Tells (ChoiceIndex.form c.standardCount c.extensible i.toNat) (ChoiceIndex.form c.standardCount c.extensible j.toNat) (i = j) :=
  tells_of_takes (fun r => Reader.takes_index r (Nat.le_of_lt hc) hi) fun r => Reader.takes_index r (Nat.le_of_lt hc) hj

theorem telling_enumerated (name : String) (items : List String) (standard : Option Nat)
    (hc : (enumerated name items standard).countable = true) : (enumerated name items standard).Telling := by
  intro a b ha hb
  cases a
  case enumerated i =>
    cases b
    case enumerated j =>
      exact (tells_index (of_decide_eq_true hc) (of_decide_eq_true ha) (of_decide_eq_true hb)).weaken beq_iff_eq.mpr
    all_goals exact absurd hb Bool.false_ne_true
  all_goals exact absurd ha Bool.false_ne_true

/-- A choice tells the index, and then the value of that alternative. -/
theorem telling_choice (name : String) {alternatives : List (String × Descriptor)} (standard : Option Nat)
    (hc : (choice name alternatives standard).countable = true) (h : ∀ alternative ∈ alternatives, alternative.2.Telling) :
    (choice name alternatives standard).Telling := by
  intro a b ha hb
  obtain ⟨i, a, alternative, rfl, hfound, hca⟩ := exists_alternative ha
  obtain ⟨j, b, alternative', rfl, hfound', hcb⟩ := exists_alternative hb
  have hi : i.toNat < alternatives.length := (List.getElem?_eq_some_iff.mp hfound).1
  have hj : j.toNat < alternatives.length := (List.getElem?_eq_some_iff.mp hfound').1
  rw [bits, bits, alternativeBits_eq hfound, alternativeBits_eq hfound']
  refine ((tells_index (of_decide_eq_true hc) hi hj).append fun hij => ?_).weaken fun hp =>
    Bool.and_eq_true_iff.mpr ⟨beq_iff_eq.mpr hp.1, hp.2⟩
  subst hij
  rw [hfound] at hfound'
  cases hfound'
  have hpayload := h alternative (List.mem_of_getElem? hfound) a b hca hcb
  split
  · exact OpenType.tells_form hpayload
  · exact hpayload

/-- The form of a value tells the value. -/
theorem telling (type : Descriptor) (ht : type.everywhere countable = true) : type.Telling := by
  induction type using Descriptor.induction with
  | simple name plain extensible => exact telling_simple name plain extensible
  | enumerated name items standard => exact telling_enumerated name items standard (of_everywhere ht)
  | sequence name fields standard ih =>
    exact telling_sequence name standard fun field hm => ih field hm ((everywhere_sequence.mp ht).2 field hm)
  | sequenceOf name element size extensible ih =>
    exact telling_sequenceOf name size extensible (ih (everywhere_sequenceOf.mp ht).2)
  | choice name alternatives standard ih =>
    exact telling_choice name standard (of_everywhere ht) fun alternative hm =>
      ih alternative hm ((everywhere_choice.mp ht).2 alternative hm)

end Descriptor

end UnalignedPer
