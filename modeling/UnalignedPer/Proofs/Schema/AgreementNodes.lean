import UnalignedPer.Proofs.Schema.Agreement

/-!
# Type nodes are read as they are spelled

Each reader of a part of a type node agrees with the reading of that part, and so the reader of type nodes agrees with
`Spelling.type?`, if what finds the types of references agrees with them.
-/

namespace UnalignedPer

namespace Loading

open Spelling (Refs named? SpellsField)

variable {types : List (String × Json)} {active : List String}

/-! ## The parts without types -/

/-- Unknown keys bring warnings, and nothing is read of them. -/
theorem agrees_warnUnknownKeys (location : Location) (allowed : List String) (members : List (String × Json)) :
    Agrees types active (warnUnknownKeys location allowed members) fun _ => some () := by
  induction members with
  | nil => exact agrees_pure ()
  | cons member rest ih =>
    refine (agrees_ite (fun _ => (agrees_warning _ _).bind fun _ => ih) fun _ => ih).congr fun refs => ?_
    exact (ite_self _).symm

/-- A bound is read as the node spells it. -/
theorem agrees_readBound (location : Location) (isSize : Bool) (members : List (String × Json)) (key : String) :
    Agrees types active (readBound location isSize members key)
      fun _ => (Spelling.bound? isSize (.obj members) key).map some := by
  unfold readBound Spelling.bound?
  rw [Json.under?_obj]
  cases Json.member? key members with
  | none => exact agrees_pure _
  | some bound =>
    simp only
    cases bound.int64? with
    | none => exact agrees_refuse _ _
    | some number =>
      refine (agrees_ite (fun _ => agrees_refuse _ _) fun _ => agrees_pure _).congr fun refs => ?_
      rw [Option.bind_some]
      split <;> rfl

/-- The extension flag is read as the node spells it. -/
theorem agrees_readExtensible (location : Location) (members : List (String × Json)) :
    Agrees types active (readExtensible location members) fun _ => Spelling.extensible? (.obj members) := by
  unfold readExtensible Spelling.extensible?
  rw [Json.under?_obj]
  cases Json.member? "extensible" members with
  | none => exact agrees_pure _
  | some flag =>
    simp only
    cases flag.bool? with
    | none => exact (agrees_pure false).after_error _ _
    | some value => exact agrees_pure value

/-- The two bounds are read as the node spells them, and refused where they cross. -/
theorem agrees_readBounds (location : Location) (isSize : Bool) (members : List (String × Json)) :
    Agrees types active (readBounds location isSize members)
      fun _ => (Spelling.bounds? isSize (.obj members)).map some := by
  have hflag : Agrees types active (readExtensible location members) fun _ => Spelling.extensible? (.obj members) :=
    agrees_readExtensible location members
  let flag : Option Bool := Spelling.extensible? (.obj members)
  have hnone : Agrees types active (readExtensible location members >>= fun _ => pure (none : Option (Bounds Int64 × Bool)))
      fun _ => flag.bind fun _ => some none :=
    hflag.bind fun _ => agrees_pure none
  have hsome : ∀ (bounds : Bounds Int64) (crossed : Bool), Agrees types active
      (readExtensible location members >>= fun extensible => pure (if crossed then none else some (bounds, extensible)))
      fun _ => flag.bind fun extensible => some (if crossed then none else some (bounds, extensible)) :=
    fun bounds crossed => hflag.bind fun extensible => agrees_pure _
  refine ((agrees_readBound location isSize members "min").bind_some (t := fun _ =>
    ((Spelling.bound? isSize (.obj members) "max").map some).bind fun _ => flag.bind fun _ => some none) (fun lower =>
      (agrees_readBound location isSize members "max").bind_some (s := fun upper _ => flag.bind fun extensible =>
        if Spelling.uncrossed lower upper then some (some (⟨lower, upper⟩, extensible)) else none)
        (t := fun _ => flag.bind fun _ => some none) (fun upper => ?_) ?_) ?_).congr fun refs => ?_
  · cases lower with
    | none => exact hsome ⟨none, upper⟩ false
    | some lower =>
      cases upper with
      | none => exact hsome ⟨some lower, none⟩ false
      | some upper =>
        refine (agrees_ite (c := lower > upper) (fun _ => (hsome ⟨some lower, some upper⟩ true).after_error _ _) fun _ =>
          hsome ⟨some lower, some upper⟩ false).congr fun refs => ?_
        have hc : Spelling.uncrossed (some lower) (some upper) = decide (lower ≤ upper) := rfl
        by_cases hlt : lower > upper
        · rw [if_pos hlt, hc, decide_eq_false (Int64.not_le.mpr hlt)]
          cases flag <;> rfl
        · rw [if_neg hlt, hc, decide_eq_true (Int64.not_lt.mp hlt)]
          rfl
  · cases lower <;> exact hnone
  · exact (agrees_readBound location isSize members "max").bind fun _ => hnone
  · show (Spelling.bounds? isSize (.obj members)).map some = (Spelling.bound? isSize (.obj members) "min").bind fun lower =>
      (Spelling.bound? isSize (.obj members) "max").bind fun upper => (Spelling.extensible? (.obj members)).bind fun extensible =>
        if Spelling.uncrossed lower upper then some (some (⟨lower, upper⟩, extensible)) else none
    simp only [Spelling.bounds?, Option.bind_eq_bind, Option.map_bind, Function.comp_def, apply_ite (Option.map some),
      Option.map_some, Option.map_none]

/-- The alphabet of a text type is read as the node spells it. -/
theorem agrees_readAlphabet (location : Location) (members : List (String × Json)) :
    Agrees types active (readAlphabet location members) fun _ => (Spelling.alphabet? (.obj members)).map some := by
  unfold readAlphabet Spelling.alphabet?
  rw [Json.under?_obj]
  cases Json.member? "charset" members with
  | none => exact agrees_pure _
  | some charset =>
    simp only
    cases charset.str?.bind alphabetOfName? with
    | none => exact agrees_refuse _ _
    | some alphabet => exact agrees_pure _

/-- A text type is read as its alphabet, with bounds that are read already. -/
theorem agrees_text (location : Location) (name : String) (bounds : Bounds Int64) (extensible : Bool)
    (members : List (String × Json)) :
    Agrees types active (readAlphabet location members >>= fun found =>
      match found with
      | none => pure none
      | some alphabet => pure (some (Descriptor.simple name (.text alphabet bounds) extensible)))
      fun _ => ((Spelling.alphabet? (.obj members)).bind fun alphabet =>
        some (Descriptor.simple name (.text alphabet bounds) extensible)).map some := by
  rw [Option.map_bind]
  exact (agrees_readAlphabet location members).bind_some (fun alphabet => agrees_pure _) (agrees_pure none)

/-- A type that is put together from bounds is read as the node spells it. -/
theorem agrees_readBounded (location : Location) (name : String) (kind : Kind) (members : List (String × Json)) :
    Agrees types active (readBounded location name kind members)
      fun _ => (Spelling.bounded? name kind (.obj members)).map some := by
  unfold Spelling.bounded?
  rw [Option.bind_eq_bind, Option.map_bind]
  refine (agrees_readBounds location (kind ≠ .integer) members).bind_some ?_ (agrees_pure none)
  rintro ⟨bounds, extensible⟩
  cases kind
  case integer | octetString | bitString => exact agrees_pure _
  all_goals exact agrees_text location name bounds extensible members

/-- The place of the marker is read as the node spells it, among the names of the members. -/
theorem agrees_readStandard (location : Location) (members : List (String × Json)) (names : List String) :
    Agrees types active (readStandard location members names)
      fun _ => (Spelling.standard? names (.obj members)).map some := by
  unfold Spelling.standard?
  simp only [Json.under?_obj]
  rw [Option.bind_eq_bind, Option.map_bind]
  refine (agrees_readExtensible location members).bind fun extensible => ?_
  cases Json.member? "extensionAfter" members with
  | none => exact agrees_pure _
  | some after =>
    refine (agrees_ite (fun _ => agrees_refuse _ _) fun _ => ?_).congr fun refs => apply_ite (Option.map some) _ _ _
    cases after.str? with
    | none => exact agrees_refuse _ _
    | some name =>
      simp only [Option.bind_some]
      cases names.idxOf? name with
      | none => exact agrees_refuse _ _
      | some index => exact agrees_pure _

/-- The items from some place on are read as the node spells them, behind those that were read. -/
theorem agrees_readItems (location : Location) (index : Nat) (sofar : List String) (ok : Bool) (items : List Json) :
    Agrees types active (readItems location index sofar ok items)
      fun _ => (Spelling.items? sofar items).map fun names => (names.reverse ++ sofar, ok) := by
  induction items generalizing index sofar ok with
  | nil => exact agrees_pure _
  | cons item rest ih =>
    rw [readItems, Spelling.items?]
    cases item.str? with
    | none => exact (ih _ _ _).after_error _ _
    | some name =>
      refine (agrees_ite (fun _ => (ih _ _ _).after_error _ _) fun _ => agrees_ite (fun _ => (ih _ _ _).after_error _ _)
        fun _ => ih (index + 1) (name :: sofar) ok).congr fun refs => ?_
      rw [Option.bind_eq_bind, Option.bind_some]
      by_cases hempty : name.isEmpty = true
      · rw [if_pos (.inl hempty), if_pos hempty]
        rfl
      · by_cases hseen : sofar.contains name = true
        · rw [if_pos (.inr hseen), if_neg hempty, if_pos hseen]
          rfl
        · rw [if_neg (not_or.mpr ⟨hempty, hseen⟩), if_neg hempty, if_neg hseen, Option.map_map]
          refine congrArg (fun f => Option.map f _) (funext fun names => ?_)
          simp only [Function.comp_apply, List.reverse_cons, List.append_assoc, List.singleton_append]

/-- An enumeration is read as the node spells it. -/
theorem agrees_readEnumerated (location : Location) (name : String) (members : List (String × Json)) :
    Agrees types active (readEnumerated location name members)
      fun _ => (Spelling.enumerated? name (.obj members)).map some := by
  unfold readEnumerated Spelling.enumerated? Json.itemsUnder?
  rw [Json.under?_obj]
  cases (Json.member? "items" members).bind Json.arr? with
  | none => exact agrees_refuse _ _
  | some raw =>
    cases raw with
    | nil => exact agrees_refuse _ _
    | cons item rest =>
      refine ((agrees_readItems _ 0 [] true (item :: rest)).bind (s := fun found refs => if found.2 = true then
        (Spelling.standard? found.1.reverse (.obj members)).bind fun standard =>
          some (some (Descriptor.enumerated name found.1.reverse standard)) else some none) ?_).congr fun refs => ?_
      · rintro ⟨items, ok⟩
        refine agrees_ite (fun _ => ?_) fun _ => agrees_pure none
        exact (agrees_readStandard _ _ _).bind_some (fun standard => agrees_pure _) (agrees_pure none)
      · show Option.map some ((Spelling.items? [] (item :: rest)).bind fun items =>
            (Spelling.standard? items (.obj members)).bind fun standard =>
              some (Descriptor.enumerated name items standard)) = _
        cases Spelling.items? [] (item :: rest) with
        | none => rfl
        | some items =>
          simp only [Option.bind_some, Option.map_some, List.append_nil, List.reverse_reverse, if_true]
          cases Spelling.standard? items (.obj members) <;> rfl

/-! ## Fields and alternatives -/

/-- What is known after more fields or alternatives were read. -/
def MemberScan.extend (scan : MemberScan) (fields : List (Field Descriptor)) : MemberScan :=
  ⟨scan.ok, (fields.map (·.name)).reverse ++ scan.seen, fields.reverse ++ scan.members⟩

/-- One field and then some more are one list of fields. -/
theorem MemberScan.extend_extend (scan : MemberScan) (field : Field Descriptor) (fields : List (Field Descriptor)) :
    (scan.extend [field]).extend fields = scan.extend (field :: fields) := by
  simp only [extend, List.map_cons, List.map_nil, List.reverse_cons, List.reverse_nil, List.nil_append, List.append_assoc]

/-- The flag of a field is read as the node spells it; an alternative must not be optional. -/
theorem agrees_readOptional (location : Location) (isChoice : Bool) (member : List (String × Json)) :
    Agrees types active (readOptional location isChoice member)
      fun _ => (Spelling.optional? isChoice (.obj member)).map some := by
  unfold readOptional Spelling.optional?
  rw [Json.under?_obj]
  cases Json.member? "optional" member with
  | none => exact agrees_pure _
  | some flag =>
    simp only
    cases flag.bool? with
    | none => exact agrees_refuse _ _
    | some value =>
      refine (agrees_ite (fun _ => agrees_refuse _ _) fun _ => agrees_pure _).congr fun refs => ?_
      rw [Option.bind_some]
      split <;> rfl

/-- The type of a field or alternative agrees with its reader, if there is one. -/
theorem agrees_memberType (location : Location) (name : String) (optional : Bool)
    {type? : Option (LoadM (Option Descriptor))} {r : Refs → Option Descriptor} (hnone : type? = none → ∀ refs, r refs = none)
    (hsome : ∀ read, type? = some read → Agrees types active read fun refs => (r refs).map some) (scan : MemberScan) :
    Agrees types active (match type? with
      | none => do
        error location ("member '" ++ name ++ "' needs a 'type'")
        pure scan.failed
      | some read => do
        match ← read with
        | none => pure scan.failed
        | some type => pure { scan with members := ⟨name, optional, type⟩ :: scan.members })
      fun refs => (r refs).map fun type => { scan with members := ⟨name, optional, type⟩ :: scan.members } := by
  cases htype : type? with
  | none => exact ((agrees_pure _).after_error _ _).congr fun refs => by rw [hnone htype]; rfl
  | some read =>
    simp only [Option.map_eq_bind]
    exact (hsome read htype).bind_some (fun type => agrees_pure _) (agrees_pure _)

/-- A field or alternative agrees with its parts if the reader of its type does. -/
theorem agrees_readMember (location : Location) (isChoice : Bool) (member : List (String × Json))
    {type? : Option (LoadM (Option Descriptor))} {r : Refs → Option Descriptor} (hnone : type? = none → ∀ refs, r refs = none)
    (hsome : ∀ read, type? = some read → Agrees types active read fun refs => (r refs).map some) (scan : MemberScan) :
    Agrees types active (readMember location isChoice member type? scan) fun refs =>
      if (Spelling.memberName (.obj member)).isEmpty ∨ scan.seen.contains (Spelling.memberName (.obj member)) then none
      else (Spelling.optional? isChoice (.obj member)).bind fun optional => (r refs).map fun type =>
        scan.extend [⟨Spelling.memberName (.obj member), optional, type⟩] := by
  unfold readMember
  have htype := fun optional => agrees_memberType location (Spelling.memberName (.obj member)) optional hnone hsome
  refine ((agrees_warnUnknownKeys _ _ _).bind fun _ => agrees_ite (fun _ => (agrees_pure _).after_error _ _) fun _ =>
    agrees_ite (fun _ => (agrees_pure _).after_error _ _) fun _ => (agrees_readOptional location isChoice member).bind_some
      (fun optional => htype optional ⟨scan.ok && true, Spelling.memberName (.obj member) :: scan.seen, scan.members⟩)
      (htype false ⟨scan.ok && false, Spelling.memberName (.obj member) :: scan.seen, scan.members⟩)).congr fun refs => ?_
  rw [Option.bind_some]
  by_cases hempty : (Spelling.memberName (.obj member)).isEmpty = true
  · rw [if_pos (.inl hempty)]
    exact (if_pos hempty).symm
  · by_cases hseen : scan.seen.contains (Spelling.memberName (.obj member)) = true
    · rw [if_pos (.inr hseen)]
      exact ((if_neg hempty).trans (if_pos hseen)).symm
    · rw [if_neg (not_or.mpr ⟨hempty, hseen⟩), Bool.and_true]
      exact ((if_neg hempty).trans (if_neg hseen)).symm

/-- Fields or alternatives make a type if all of them are sound. -/
theorem agrees_finishMembers (location : Location) (name : String) (isChoice : Bool) (members : List (String × Json))
    (scan : MemberScan) :
    Agrees types active (finishMembers location name isChoice members scan) fun _ =>
      if scan.ok then (Spelling.finish? name isChoice (.obj members) scan.members.reverse).map some else some none := by
  refine agrees_ite (fun _ => ?_) fun _ => agrees_pure none
  unfold Spelling.finish?
  simp only [Option.map_map]
  simp only [Option.map_eq_bind]
  refine (agrees_readStandard _ _ _).bind_some (fun standard => ?_) (agrees_pure none)
  cases isChoice
  · exact agrees_pure _
  · exact agrees_pure _

/-! ## Type nodes -/

variable {resolve : Resolver}

mutual

/-- A type node is read as it is spelled, if references are. -/
theorem agrees_readType
    (h : ∀ target location, Agrees types active (resolve target location) fun refs => (refs target).map some) (name : String)
    (location : Location) : ∀ node, Agrees types active (readType resolve name location node)
      fun refs => (Spelling.type? refs name node).map some
  | .obj members => by
    have hmembers : ∀ key isChoice, Agrees types active (do
        match ← readMembersUnder resolve key isChoice (location.child key) members with
        | none => pure none
        | some scan => finishMembers location name isChoice members scan)
        fun refs => ((Spelling.membersUnder? refs key isChoice members).bind
          (Spelling.finish? name isChoice (.obj members))).map some := by
      intro key isChoice
      refine Agrees.congr ((agrees_readMembersUnder h key isChoice _ members).bind_some
        (fun scan => agrees_finishMembers location name isChoice members scan) (agrees_pure none)) fun refs => ?_
      rw [Option.map_bind, Option.bind_map]
      refine congrArg (Option.bind _) (funext fun fields => ?_)
      show _ = (Spelling.finish? name isChoice (.obj members) (fields.reverse ++ []).reverse).map some
      rw [List.append_nil, List.reverse_reverse]
      rfl
    unfold readType Spelling.type?
    have href : (Json.obj members).reference? = (Json.member? "ref" members).bind Json.str? := rfl
    have hkind : (Json.obj members).kind? = ((Json.member? "kind" members).bind Json.str?).bind kindOfName? := rfl
    simp only [href, hkind]
    cases (Json.member? "ref" members).bind Json.str? with
    | some target =>
      refine (agrees_ite (fun _ => (agrees_warning _ _).bind fun _ => h target _) fun _ => h target _).congr fun refs => ?_
      exact (ite_self _).symm
    | none =>
      cases (Json.member? "kind" members).bind Json.str? with
      | none => exact agrees_refuse _ _
      | some kindName =>
        simp only [Option.bind_some]
        cases kindOfName? kindName with
        | none => exact agrees_refuse _ _
        | some kind =>
          refine Agrees.after ?_ (agrees_warnUnknownKeys _ _ _)
          cases kind
          case null | boolean => exact agrees_pure _
          case enumerated => exact agrees_readEnumerated _ _ _
          case sequence => exact hmembers "fields" false
          case choice => exact hmembers "variants" true
          case sequenceOf =>
            have helement := agrees_readTypeUnder h "element" (location.child "element") members
            simp only [Option.bind_eq_bind, Option.bind_some]
            cases hread : readTypeUnder resolve "element" (location.child "element") members with
            | none =>
              refine Agrees.congr ((agrees_readBounds _ _ _).bind fun _ => agrees_refuse _ _) fun refs => ?_
              simp only [helement.1 hread, Option.bind_none, Option.bind_fun_none, Option.map_none]
            | some read =>
              simp only [Option.map_bind]
              refine (agrees_readBounds _ _ _).bind_some (fun bounds => ?_) ((helement.2 read hread).bind
                (s := fun _ _ => some none) fun element => ?_)
              · simp only [Function.comp_apply, Option.map_bind]
                exact (helement.2 read hread).bind_some (fun element => agrees_pure _) (agrees_pure none)
              · cases element <;> exact agrees_pure none
          all_goals exact agrees_readBounded _ _ _ _
  | .null => agrees_refuse _ _
  | .bool _ => agrees_refuse _ _
  | .number _ => agrees_refuse _ _
  | .str _ => agrees_refuse _ _
  | .arr _ => agrees_refuse _ _

/-- The type under a key, if there is one. -/
theorem agrees_readTypeUnder
    (h : ∀ target location, Agrees types active (resolve target location) fun refs => (refs target).map some) (key : String)
    (location : Location) : ∀ members,
      (readTypeUnder resolve key location members = none → ∀ refs, Spelling.typeUnder? refs key members = none) ∧
        ∀ read, readTypeUnder resolve key location members = some read →
          Agrees types active read fun refs => (Spelling.typeUnder? refs key members).map some
  | [] => ⟨fun _ _ => rfl, fun _ hr => by cases hr⟩
  | (k, node) :: rest => by
    simp only [readTypeUnder, Spelling.typeUnder?, eq_comm (a := k)]
    by_cases hk : key = k
    · simp only [if_pos hk, reduceCtorEq, false_implies, true_and, Option.some.injEq]
      rintro _ rfl
      exact agrees_readType h "" location node
    · simp only [if_neg hk]
      exact agrees_readTypeUnder h key location rest

/-- The fields or alternatives under a key. -/
theorem agrees_readMembersUnder
    (h : ∀ target location, Agrees types active (resolve target location) fun refs => (refs target).map some) (key : String)
    (isChoice : Bool) (location : Location) : ∀ members,
      Agrees types active (readMembersUnder resolve key isChoice location members) fun refs =>
        ((Spelling.membersUnder? refs key isChoice members).map MemberScan.start.extend).map some
  | [] => agrees_refuse _ _
  | (k, node) :: rest => by
    unfold readMembersUnder Spelling.membersUnder?
    by_cases hk : k = key
    · simp only [if_pos hk, if_pos hk.symm]
      match node with
      | .arr items =>
        refine (agrees_ite (fun _ => agrees_refuse _ _) fun _ =>
          (agrees_readMembers h isChoice location 0 .start items).map some).congr fun refs => ?_
        by_cases hc : isChoice = true ∧ items.isEmpty = true
        · simp only [if_pos hc, Option.map_none]
        · simp only [if_neg hc]
          rfl
      | .null => exact agrees_refuse _ _
      | .bool _ => exact agrees_refuse _ _
      | .number _ => exact agrees_refuse _ _
      | .str _ => exact agrees_refuse _ _
      | .obj _ => exact agrees_refuse _ _
    · simp only [if_neg hk, if_neg (Ne.symm hk)]
      exact agrees_readMembersUnder h key isChoice location rest

/-- Fields or alternatives are read one by one. -/
theorem agrees_readMembers
    (h : ∀ target location, Agrees types active (resolve target location) fun refs => (refs target).map some)
    (isChoice : Bool) (location : Location) (index : Nat) (scan : MemberScan) : ∀ items,
      Agrees types active (readMembers resolve isChoice location index scan items) fun refs =>
        (Spelling.fields? refs isChoice scan.seen items).map scan.extend
  | [] => agrees_pure scan
  | item :: rest => by
    have hother : Agrees types active (do
        error (location.item index) "member must be an object"
        readMembers resolve isChoice location (index + 1) scan.failed rest) fun _ => none :=
      (agrees_readMembers h isChoice location (index + 1) scan.failed rest).after_error _ _
    unfold readMembers
    match item with
    | .obj member =>
      have htype := agrees_readTypeUnder h "type" ((location.item index).child "type") member
      refine ((agrees_readMember (location.item index) isChoice member htype.1 htype.2 scan).bind fun scan =>
        agrees_readMembers h isChoice location (index + 1) scan rest).congr fun refs => ?_
      rw [Spelling.fields?]
      by_cases hc : (Spelling.memberName (.obj member)).isEmpty = true ∨
          scan.seen.contains (Spelling.memberName (.obj member)) = true
      · rw [if_pos hc, if_pos hc]
        rfl
      · rw [if_neg hc, if_neg hc]
        cases Spelling.optional? isChoice (.obj member) with
        | none => rfl
        | some optional =>
          cases Spelling.typeUnder? refs "type" member with
          | none => rfl
          | some type =>
            show Option.map scan.extend ((Spelling.fields? refs isChoice _ rest).bind fun fields =>
                some (⟨Spelling.memberName (.obj member), optional, type⟩ :: fields)) =
              (Spelling.fields? refs isChoice (Spelling.memberName (.obj member) :: scan.seen) rest).map _
            cases Spelling.fields? refs isChoice (Spelling.memberName (.obj member) :: scan.seen) rest with
            | none => rfl
            | some fields => exact congrArg some (MemberScan.extend_extend ..).symm
    | .null => exact hother
    | .bool _ => exact hother
    | .number _ => exact hother
    | .str _ => exact hother
    | .arr _ => exact hother

end

end Loading

end UnalignedPer
