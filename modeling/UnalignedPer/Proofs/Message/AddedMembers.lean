import UnalignedPer.Proofs.Message.Decoding
import UnalignedPer.Proofs.Message.Placement
import UnalignedPer.Proofs.Message.Screening

/-!
# Choices and enumerations that grow

Alternatives and items may be added behind those that a type has, when it has an extension marker (`Descriptor.Grows`). The bits of
a value of the shorter type are the same under the longer one, since neither the index nor the open type of an extension depends on
how many members there are. Both types therefore decode such a message alike, be it to its value or to a fault of the decoder's
limits. A message of a member that was added is refused by the shorter type, which names its index (`members_added`).
-/

namespace UnalignedPer

/-- The index of the item or alternative that a value stands for. -/
def Value.chosen? : Value → Option UInt64
  | .enumerated index => some index
  | .choice index _ => some index
  | _ => none

/-- What the packed form of a choice or an enumeration goes by is the same, and there may be more members. -/
structure Constraint.Grows (c c' : Constraint) : Prop where
  /-- There is an extension marker. -/
  extensible : c.extensible = true
  /-- There is one in the longer type, too. -/
  extensible' : c'.extensible = true
  /-- It stands at the same place. -/
  standardCount : c'.standardCount = c.standardCount
  /-- No member was taken away. -/
  count : c.count ≤ c'.count

namespace Descriptor

/-- Members were added behind those of a choice or an enumeration with an extension marker. -/
inductive Grows : Descriptor → Descriptor → Prop
  /-- Items were added. -/
  | enumerated (name name' : String) (items more : List String) {standard : Nat} (h : standard ≤ items.length) :
      Grows (.enumerated name items (some standard)) (.enumerated name' (items ++ more) (some standard))
  /-- Alternatives were added. -/
  | choice (name name' : String) (alternatives more : List (String × Descriptor)) {standard : Nat}
      (h : standard ≤ alternatives.length) :
      Grows (.choice name alternatives (some standard)) (.choice name' (alternatives ++ more) (some standard))

theorem standardCount_enumerated (name : String) (items : List String) (standard : Option Nat) :
    (enumerated name items standard).constraint.standardCount = rootCount standard items.length :=
  standardCount_eq rfl rfl

theorem standardCount_choice (name : String) (alternatives : List (String × Descriptor)) (standard : Option Nat) :
    (choice name alternatives standard).constraint.standardCount = rootCount standard alternatives.length :=
  standardCount_eq rfl rfl

variable {older newer : Descriptor}

/-- The marker keeps its place. -/
theorem Grows.constraint (h : older.Grows newer) : older.constraint.Grows newer.constraint := by
  cases h with
  | enumerated name name' items more hs =>
    have hle : items.length ≤ (items ++ more).length := by simp
    refine ⟨rfl, rfl, ?_, hle⟩
    rw [standardCount_enumerated, standardCount_enumerated, rootCount_some hs, rootCount_some (hs.trans hle)]
  | choice name name' alternatives more hs =>
    have hle : alternatives.length ≤ (alternatives ++ more).length := by simp
    refine ⟨rfl, rfl, ?_, hle⟩
    rw [standardCount_choice, standardCount_choice, rootCount_some hs, rootCount_some (hs.trans hle)]

/-- Members are counted in a word in the shorter type when they are in the longer one. -/
theorem Grows.countable (h : older.Grows newer) (ht : newer.everywhere Descriptor.countable = true) :
    older.everywhere Descriptor.countable = true := by
  have hle := h.constraint.count
  cases h with
  | enumerated name name' items more hs =>
    have hlt : (Descriptor.enumerated name' (items ++ more) (some _)).constraint.count < 2 ^ 64 :=
      of_decide_eq_true (of_everywhere ht)
    exact decide_eq_true (Nat.lt_of_le_of_lt hle hlt)
  | choice name name' alternatives more hs =>
    obtain ⟨hcount, hparts⟩ := everywhere_choice.mp ht
    exact everywhere_choice.mpr ⟨decide_eq_true (Nat.lt_of_le_of_lt hle (of_decide_eq_true hcount)),
      fun alternative hm => hparts alternative (List.mem_append_left _ hm)⟩

/-! ## Values and their bits -/

/-- A value of a choice or an enumeration stands for a member, and its form starts with the index of that. -/
theorem exists_chosen {type : Descriptor} {value : Value} (hk : type.kind = .choice ∨ type.kind = .enumerated)
    (hc : type.conforms value = true) :
    ∃ index, value.chosen? = some index ∧ index.toNat < type.constraint.count ∧
      ChoiceIndex.form type.constraint.standardCount type.constraint.extensible index.toNat <+: type.bits value := by
  cases type
  case enumerated name items standard =>
    cases value
    case enumerated index => exact ⟨index, rfl, of_decide_eq_true hc, List.prefix_refl _⟩
    all_goals exact absurd hc Bool.false_ne_true
  case choice name alternatives standard =>
    obtain ⟨index, payload, alternative, rfl, ha, -⟩ := exists_alternative hc
    exact ⟨index, rfl, (List.getElem?_eq_some_iff.mp ha).1, List.prefix_append _ _⟩
  case simple name plain extensible => cases plain <;> simp [kind, Constraint.kind, constraint, SimpleType.kind] at hk
  all_goals simp [kind, Constraint.kind, constraint] at hk

theorem Grows.kind (h : older.Grows newer) :
    (older.kind = .choice ∨ older.kind = .enumerated) ∧ (newer.kind = .choice ∨ newer.kind = .enumerated) := by
  cases h with
  | enumerated => exact ⟨Or.inr rfl, Or.inr rfl⟩
  | choice => exact ⟨Or.inl rfl, Or.inl rfl⟩

/-- A value of the shorter type is one of the longer type and has the same form. -/
theorem Grows.keeps (h : older.Grows newer) {value : Value} (hc : older.conforms value = true) :
    newer.conforms value = true ∧ newer.bits value = older.bits value := by
  have hcon := h.constraint
  cases h with
  | enumerated name name' items more hs =>
    cases value
    case enumerated index =>
      have hi : index.toNat < items.length := of_decide_eq_true hc
      refine ⟨decide_eq_true (Nat.lt_of_lt_of_le hi hcon.count), ?_⟩
      show ChoiceIndex.form _ _ _ = ChoiceIndex.form _ _ _
      rw [hcon.standardCount, hcon.extensible, hcon.extensible']
    all_goals exact absurd hc Bool.false_ne_true
  | choice name name' alternatives more hs =>
    obtain ⟨index, payload, alternative, rfl, ha, hpayload⟩ := exists_alternative hc
    have ha' : (alternatives ++ more)[index.toNat]? = some alternative := by
      rw [List.getElem?_append_left (List.getElem?_eq_some_iff.mp ha).1, ha]
    constructor
    · show alternativeConforms (alternatives ++ more) index.toNat payload = true
      rw [alternativeConforms_eq, ha']
      exact hpayload
    · simp only [bits]
      rw [alternativeBits_eq ha, alternativeBits_eq ha', hcon.standardCount, hcon.extensible, hcon.extensible']

end Descriptor

/-- An encoding is determined by its bits. -/
theorem Encoding.Holds.eq_of_toList {e e' : Encoding} {settings settings' : Settings} {type type' : Descriptor}
    {value value' : Value} (h : e.Holds settings type value) (h' : e'.Holds settings' type' value')
    (hb : e.toList = e'.toList) : e = e' := by
  have hlength : e.bitLength = e'.bitLength := by
    have := congrArg List.length hb
    rwa [Encoding.toList, Encoding.toList, Octets.length_bitsFrom, Octets.length_bitsFrom] at this
  have hoctets : e.octets = e'.octets := by
    refine Octets.ext_bits (by rw [h.size, h'.size, hlength]) fun q _ => ?_
    by_cases hq : q < e.bitLength
    · have hbit : e.toList[q]? = e'.toList[q]? := by rw [hb]
      rw [Encoding.toList, Encoding.toList, Octets.getElem?_bitsFrom, Octets.getElem?_bitsFrom, if_pos hq, if_pos (by omega),
        Nat.zero_add] at hbit
      exact Option.some.inj hbit
    · rw [h.blank q (by omega), h'.blank q (by omega)]
  cases e
  cases e'
  cases hlength
  cases hoctets
  rfl

namespace Reader

variable {α : Type} {c c' : Constraint} {r r' : Reader}

/-! ## Reading the index -/

/-- An index that is known is known where there are more members. -/
theorem index_of_grows {member : UInt64} (h : c.Grows c') (hr : Reader.index c r = .ok member r') :
    Reader.index c' r = .ok member r' := by
  have hle := h.count
  unfold Reader.index at hr ⊢
  rw [h.standardCount, h.extensible', ← h.extensible]
  rw [run_bind] at hr ⊢
  cases hm : (ChoiceIndex.unpack c.standardCount c.extensible : ReaderM UInt64) r with
  | error fault s =>
    rw [hm] at hr
    cases hr
  | ok found s =>
    rw [hm] at hr
    simp only [] at hr ⊢
    by_cases hlt : c.count ≤ found.toNat
    · rw [if_pos hlt] at hr
      cases hr
    · rw [if_neg hlt] at hr
      rw [if_neg (show ¬c'.count ≤ found.toNat by omega)]
      exact hr

/-- An index behind those of the members is refused, with the number of members. -/
theorem index_refused {member : UInt64} (hext : c.extensible = true) (hcount : c.count ≤ 2 ^ 64) (hi : c.count ≤ member.toNat)
    (hp : ChoiceIndex.form c.standardCount c.extensible member.toNat <+: r.view.toList) :
    ∃ r', Reader.index c r = .error (.invalidChoiceIndex member.toNat c.count) r' := by
  have hle : c.standardCount ≤ 2 ^ 64 := by
    unfold Constraint.standardCount
    split <;> omega
  obtain ⟨r', hm, -⟩ := ChoiceIndex.takes_unpack r hle (Or.inl hext) hp
  refine ⟨r', ?_⟩
  rw [Reader.index, run_bind, hm]
  simp only []
  rw [if_pos hi]
  rfl

/-! ## Reading on -/

/-- A reader in no sequence stands where it stands itself. -/
theorem shifted_self (hw : r.view.position ≤ r.view.stop) (hp : r.presence = none) : Shifted 0 r r where
  view := ⟨(Nat.zero_add _).symm, (Nat.zero_add _).symm, hw, fun _ _ => by rw [Nat.zero_add]⟩
  presence := by rw [hp]; rfl
  claimed := rfl
  marker := rfl
  depth := rfl
  settings := rfl

/-- So does one that has read something. -/
theorem shifted_moved {n : Nat} (hm : LawfulBitSource.Moved r n r') (hw : r.view.position ≤ r.view.stop)
    (hp : r.presence = none) : Shifted 0 r' r' := by
  obtain ⟨hview, hle⟩ := hm.1.view
  refine shifted_self ?_ (hm.2.trans hp)
  rw [hview]
  change n ≤ r.view.stop - r.view.position at hle
  show r.view.position + n ≤ r.view.stop
  omega

/-- Both readers are the same one. -/
def Both (r s t : Reader) : Prop :=
  r = s ∧ r = t

/-- A container whose content comes to the same comes to the same. -/
theorem leadsTo_container {content content' : ReaderM α} (hp : r.presence = none) (hc : r.claimed = none)
    (hw : r.view.position ≤ r.view.stop)
    (h : LeadsTo (Both { r with depth := r.depth + 1 }) (Shifted 0) content content') :
    LeadsTo (Both r) (Shifted 0) (container content) (container content') := by
  rintro _ _ ⟨rfl, rfl⟩
  have hentered := containerBy_alone (α := α) inOpenType hp hc
  by_cases hd : r.depth ≥ r.settings.maxDepth
  · exact inStep_error ((hentered content).trans (if_pos hd)) ((hentered content').trans (if_pos hd)) (shifted_self hw hp)
  · have hbody : ∀ content : ReaderM α, outcome (container content) r =
        outcome (afterwards (fun r => { r with depth := r.depth - 1 }) content) { r with depth := r.depth + 1 } :=
      fun content => by
        have hrun : container content r = _ := (hentered content).trans (if_neg hd)
        unfold outcome
        rw [hrun]
    rw [hbody, hbody, outcome_afterwards, outcome_afterwards]
    have hin := h ⟨rfl, rfl⟩
    exact ⟨hin.1, hin.2.of_depth (· - 1)⟩

/-- Choices of which one has more alternatives come to the same behind an index that both know. -/
theorem leadsTo_choice {member : UInt64} (h : c.Grows c') (hcount : c.count ≤ 2 ^ 64) (hi : member.toNat < c.count)
    (payload payload' : UInt64 → ReaderM α) (hpayload : payload' member = payload member) (hm : Portable (payload member))
    (hp : r.presence = none) (hc : r.claimed = none) (hw : r.view.position ≤ r.view.stop)
    (hbits : ChoiceIndex.form c.standardCount c.extensible member.toNat <+: r.view.toList) :
    LeadsTo (Both r) (Shifted 0) (choice c payload) (choice c' payload') := by
  refine leadsTo_container hp hc hw ?_
  rintro _ _ ⟨rfl, rfl⟩
  obtain ⟨r2, hm2, hmoved⟩ := takes_index { r with depth := r.depth + 1 } hcount hi hbits
  have hm2' := index_of_grows h hm2
  -- Behind the index only the traced texts tell the two apart.
  have hrest : InStep (Shifted 0)
      (do
        note .basic fun () => "choice " ++ c.text ++ " alternative " ++ toString member
        let result ← withPresence none (withContent (c.standardCount ≤ member.toNat) (payload member))
        pure (member, result))
      (do
        note .basic fun () => "choice " ++ c'.text ++ " alternative " ++ toString member
        let result ← withPresence none (withContent (c'.standardCount ≤ member.toNat) (payload' member))
        pure (member, result)) := by
    rw [h.standardCount, hpayload]
    exact (inStep_note _ _ _).bind fun _ => (inStep_withPresence (portable_withContent hm _) none).bind fun _ => inStep_pure _
  have hgo := hrest (shifted_moved hmoved hw hp)
  unfold outcome at hgo ⊢
  rw [run_bind, run_bind, hm2, hm2']
  exact hgo

/-- A choice is refused when there is no such alternative. -/
theorem choice_refused {member : UInt64} (hext : c.extensible = true) (hcount : c.count ≤ 2 ^ 64)
    (hi : c.count ≤ member.toNat) (payload : UInt64 → ReaderM α) (hp : r.presence = none) (hc : r.claimed = none)
    (hd : r.depth < r.settings.maxDepth)
    (hbits : ChoiceIndex.form c.standardCount c.extensible member.toNat <+: r.view.toList) :
    ∃ r', choice c payload r = .error (.invalidChoiceIndex member.toNat c.count) r' := by
  obtain ⟨r', hm⟩ := index_refused (r := { r with depth := r.depth + 1 }) hext hcount hi hbits
  refine ⟨{ r' with depth := r'.depth - 1 }, ?_⟩
  have hentered := containerBy_alone inOpenType hp hc (index c >>= fun alternative => do
    note .basic fun () => "choice " ++ c.text ++ " alternative " ++ toString alternative
    let result ← withPresence none (withContent (c.standardCount ≤ alternative.toNat) (payload alternative))
    pure (alternative, result))
  refine hentered.trans ?_
  rw [if_neg (by omega), afterwards, run_bind, hm]

end Reader

open Reader (Shifted LeadsTo Both)

/-- The members that were added are passed over by the index of one that was there. -/
theorem Descriptor.readAlternative_append {alternatives : List (String × Descriptor)} (more : List (String × Descriptor))
    {index : Nat} (h : index < alternatives.length) :
    readAlternative (alternatives ++ more) index = readAlternative alternatives index := by
  induction alternatives generalizing index with
  | nil => exact absurd h (Nat.not_lt_zero _)
  | cons alternative alternatives ih =>
    cases index with
    | zero => rfl
    | succ index => exact ih (Nat.lt_of_succ_lt_succ h)

/-- A value of the shorter type is read alike under the longer one, also where a limit of the reader refuses it. -/
theorem Descriptor.Grows.leadsTo_read {older newer : Descriptor} (h : older.Grows newer)
    (hcount : older.constraint.count ≤ 2 ^ 64) {value : Value} (hv : older.conforms value = true) {r : Reader}
    (hp : r.presence = none) (hc : r.claimed = none) (hw : r.view.position ≤ r.view.stop)
    (hbits : older.bits value <+: r.view.toList) : LeadsTo (Both r) (Shifted 0) older.read newer.read := by
  obtain ⟨index, -, hi, hform⟩ := exists_chosen h.kind.1 hv
  have hcon := h.constraint
  have hahead := hform.trans hbits
  cases h with
  | enumerated name name' items more hs =>
    rintro _ _ ⟨rfl, rfl⟩
    obtain ⟨r', hm, hmoved⟩ := Reader.takes_index r hcount hi hahead
    have hfield : ∀ c, Reader.enumerated c r = Reader.index c r := fun c =>
      Reader.fieldBy_alone Reader.inOpenType hp hc (Reader.index c)
    have hread := (hfield _).trans hm
    have hread' := (hfield _).trans (Reader.index_of_grows hcon hm)
    refine inStep_ok (x := Value.enumerated index) ?_ ?_ (Reader.shifted_moved hmoved hw hp)
    · rw [read, run_bind, hread]
      rfl
    · rw [read, run_bind, hread']
      rfl
  | choice name name' alternatives more hs =>
    have hchoice := Reader.leadsTo_choice hcon hcount hi (fun index => readAlternative alternatives index.toNat)
      (fun index => readAlternative (alternatives ++ more) index.toNat) (readAlternative_append more hi)
      (Reader.portable_of_placeless (placeless_readAlternative alternatives index.toNat)) hp hc hw hahead
    rw [read, read]
    exact hchoice.bind (fun _ _ hr => hr) fun _ => inStep_pure _

/-- A member that was added is refused by the shorter type. -/
theorem Descriptor.Grows.read_refused {older newer : Descriptor} (h : older.Grows newer)
    (hcount : older.constraint.count ≤ 2 ^ 64) {value : Value} {index : UInt64} (hv : newer.conforms value = true)
    (hc : value.chosen? = some index) (hi : older.constraint.count ≤ index.toNat) {r : Reader} (hp : r.presence = none)
    (hclaimed : r.claimed = none) (hd : r.depth + value.nesting ≤ r.settings.maxDepth)
    (hbits : newer.bits value <+: r.view.toList) :
    ∃ r', older.read r = .error (.invalidChoiceIndex index.toNat older.constraint.count) r' := by
  obtain ⟨found, hfound, -, hform⟩ := exists_chosen h.kind.2 hv
  obtain rfl : found = index := Option.some.inj (hfound.symm.trans hc)
  have hcon := h.constraint
  rw [hcon.standardCount, hcon.extensible', ← hcon.extensible] at hform
  have hahead := hform.trans hbits
  cases h with
  | enumerated name name' items more hs =>
    obtain ⟨r', hm⟩ := Reader.index_refused hcon.extensible hcount hi hahead
    have hread : Reader.enumerated _ r = _ := (Reader.fieldBy_alone Reader.inOpenType hp hclaimed (Reader.index _)).trans hm
    exact ⟨r', by rw [read, run_bind, hread]⟩
  | choice name name' alternatives more hs =>
    have hroom : r.depth < r.settings.maxDepth := by
      cases value
      case choice =>
        rw [Value.nesting] at hd
        omega
      all_goals exact absurd hv Bool.false_ne_true
    obtain ⟨r', hm⟩ := Reader.choice_refused hcon.extensible hcount hi (fun index => readAlternative alternatives index.toNat)
      hp hclaimed hroom hahead
    exact ⟨r', by rw [read, run_bind, hm]⟩

/-! ## Whole messages -/

/-- Types that read a message alike decode it alike. -/
theorem decode_of_leadsTo {settings : Settings} {older newer : Descriptor} {data : Octets} {length : Nat}
    (h : LeadsTo (Both (.ofView (.ofOctets data length) settings)) (Shifted 0) older.read newer.read) :
    (decode settings newer data length).1 = (decode settings older data length).1 := by
  obtain ⟨hresult, hplace⟩ := h ⟨rfl, rfl⟩
  have hposition := hplace.view.position
  rw [Nat.zero_add] at hposition
  rcases cases_of_outcome hresult with ⟨value, hm, hm'⟩ | ⟨fault, hm, hm'⟩
  · rw [decode, decode, hm, hm']
    show Except.ok (Decoding.mk value _) = Except.ok (Decoding.mk value _)
    rw [hposition]
  · rw [decode, decode, hm, hm']

/-- Members that are added to a choice or an enumeration behind its extension marker do not disturb those who know fewer of them.
A value of the shorter type is encoded to the same message under the longer one. The longer type decodes that message to what the
shorter one decodes it to, which is the value when the decoder admits strings, lists and open types as long as those of the value.
A message of a member that was added is refused by the shorter type, by the index of the member and the number of those that it
knows. The decoder has to admit containers as deep as the encoder. -/
theorem members_added {older newer : Descriptor} (hg : older.Grows newer)
    (ht : newer.everywhere Descriptor.countable = true) {settings settings' : Settings}
    (hd : settings.maxDepth ≤ settings'.maxDepth) {value : Value} {e : Encoding} {data : Octets} {length : Nat}
    (hp : e.toList <+: (BitView.ofOctets data length).toList) :
    ((encode settings older value).1 = .ok e →
      (encode settings newer value).1 = .ok e ∧
      (decode settings' newer data length).1 = (decode settings' older data length).1 ∧
      (value.lengthsWithin settings'.maxLength.toNat = true → older.contentsWithin settings'.maxLength.toNat value = true →
        ∃ found, (decode settings' newer data length).1 = .ok ⟨found, e.bitLength⟩ ∧ found.same value = true)) ∧
    ∀ index, value.chosen? = some index → older.constraint.count ≤ index.toNat → (encode settings newer value).1 = .ok e →
      (decode settings' older data length).1 = .error (.invalidChoiceIndex index.toNat older.constraint.count) := by
  have ht' := hg.countable ht
  have hcount : older.constraint.count ≤ 2 ^ 64 := Nat.le_of_lt (of_decide_eq_true (Descriptor.of_everywhere ht'))
  refine ⟨fun h => ?_, fun index hc hi h => ?_⟩
  · have hholds := holds_of_encode ht' h
    obtain ⟨hconforms, hbits⟩ := hg.keeps hholds.conforms
    obtain ⟨e', h'⟩ : ∃ e', (encode settings newer value).1 = .ok e' := exists_encode ht hconforms hholds.nesting
    have hholds' := holds_of_encode ht h'
    obtain rfl : e' = e := hholds'.eq_of_toList hholds (by rw [hholds'.bits, hholds.bits, hbits])
    have halike : (decode settings' newer data length).1 = (decode settings' older data length).1 :=
      decode_of_leadsTo (hg.leadsTo_read hcount hholds.conforms rfl rfl (Nat.zero_le _) (by rw [← hholds.bits]; exact hp))
    refine ⟨h', halike, fun hl ho => ?_⟩
    refine ⟨value.tidy, ?_, older.same_tidy value hholds.conforms⟩
    rw [halike, decode_of_form ht' hholds.conforms (Nat.le_trans hholds.nesting hd) (Descriptor.fits_of_within hl ho)
      (by rw [← hholds.bits]; exact hp), hholds.length]
  · have hholds := holds_of_encode ht h
    obtain ⟨r', hm⟩ := hg.read_refused hcount hholds.conforms hc hi (r := .ofView (.ofOctets data length) settings') rfl rfl
      (by
        show 0 + value.nesting ≤ settings'.maxDepth
        have := hholds.nesting
        omega) (by rw [← hholds.bits]; exact hp)
    rw [decode, hm]

/-- A call of one standard alternative, one extension and those that were added. -/
def Descriptor.call (more : List (String × Descriptor)) : Descriptor :=
  .choice "Call" ([("stop", .simple "" .null false), ("say", .simple "" (.octetString .free) false)] ++ more) (some 1)

/-- The added alternative of a call. -/
def Descriptor.paging : List (String × Descriptor) :=
  [("page", .simple "" (.integer ⟨some 0, some 7⟩) false)]

/-- A call of the older type is understood under a type that can page as well; a page is refused by the older type. -/
theorem members_added_calls :
    (encode .standard (.call []) (.choice 1 (some (.octets #[0xAB, 0xCD])))).1 = .ok ⟨#[0x80, 0x03, 0x02, 0xAB, 0xCD], 40⟩ ∧
    (encode .standard (.call Descriptor.paging) (.choice 1 (some (.octets #[0xAB, 0xCD])))).1 =
      .ok ⟨#[0x80, 0x03, 0x02, 0xAB, 0xCD], 40⟩ ∧
    (∃ found, (decode .standard (.call Descriptor.paging) #[0x80, 0x03, 0x02, 0xAB, 0xCD] 40).1 = .ok ⟨found, 40⟩ ∧
      found.same (.choice 1 (some (.octets #[0xAB, 0xCD]))) = true) ∧
    (encode .standard (.call Descriptor.paging) (.choice 2 (some (.integer 5)))).1 = .ok ⟨#[0x81, 0x01, 0xA0], 24⟩ ∧
    (decode .standard (.call []) #[0x81, 0x01, 0xA0] 24).1 = .error (.invalidChoiceIndex 2 2) := by
  have hgrows : (Descriptor.call []).Grows (.call Descriptor.paging) := .choice _ _ _ _ (by decide)
  have hcountable : (Descriptor.call Descriptor.paging).everywhere Descriptor.countable = true := by decide +kernel
  have hsay : (encode .standard (.call []) (.choice 1 (some (.octets #[0xAB, 0xCD])))).1 =
      .ok ⟨#[0x80, 0x03, 0x02, 0xAB, 0xCD], 40⟩ := by cbv
  have hpage : (encode .standard (.call Descriptor.paging) (.choice 2 (some (.integer 5)))).1 =
      .ok ⟨#[0x81, 0x01, 0xA0], 24⟩ := by cbv
  have hprefix : (⟨#[0x80, 0x03, 0x02, 0xAB, 0xCD], 40⟩ : Encoding).toList <+:
      (BitView.ofOctets #[0x80, 0x03, 0x02, 0xAB, 0xCD] 40).toList := List.prefix_iff_eq_take.mpr (by decide +kernel)
  have hprefix' : (⟨#[0x81, 0x01, 0xA0], 24⟩ : Encoding).toList <+: (BitView.ofOctets #[0x81, 0x01, 0xA0] 24).toList :=
    List.prefix_iff_eq_take.mpr (by decide +kernel)
  have hdepth := Nat.le_refl Settings.standard.maxDepth
  obtain ⟨hsame, -, hback⟩ := (members_added hgrows hcountable hdepth hprefix).1 hsay
  have hrefused := @members_added _ _ hgrows hcountable _ _ hdepth (.choice 2 (some (.integer 5))) _ _ _ hprefix' |>.2 2 rfl
    (by decide) hpage
  exact ⟨hsay, hsame, hback (by decide +kernel) (by decide +kernel), hpage, hrefused⟩

/-- Where strings of one octet are the longest that are admitted, a call of two octets is encoded but not decoded, neither under the
longer type nor under the shorter one. -/
theorem not_members_added_limited :
    (Descriptor.call []).Grows (.call Descriptor.paging) ∧
      (encode ⟨64, 1, .off⟩ (.call []) (.choice 1 (some (.octets #[0xAB, 0xCD])))).1 =
        .ok ⟨#[0x80, 0x03, 0x02, 0xAB, 0xCD], 40⟩ ∧
      (decode ⟨64, 1, .off⟩ (.call Descriptor.paging) #[0x80, 0x03, 0x02, 0xAB, 0xCD] 40).1 =
        .error (.unsupported .lengthLimit) ∧
      (decode ⟨64, 1, .off⟩ (.call []) #[0x80, 0x03, 0x02, 0xAB, 0xCD] 40).1 = .error (.unsupported .lengthLimit) :=
  ⟨.choice _ _ _ _ (by decide), by cbv, by cbv, by cbv⟩

end UnalignedPer
