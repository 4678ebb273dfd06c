import UnalignedPer.Proofs.Text.CharacterString

/-!
# Legal texts are spelled back

A character that is read at the front of some octets has just the octets that were read as its own sequence, because overlong
forms and surrogates are not read. So the text that legal octets spell has these octets. The other way round, the octets of any
text are legal.
-/

namespace UnalignedPer

namespace Utf8

theorem isTail_iff (octet : UInt8) : isTail octet = true ↔ 128 ≤ octet.toNat ∧ octet.toNat ≤ 191 := by
  rw [isTail, Bool.and_eq_true, decide_eq_true_eq, decide_eq_true_eq, UInt8.le_iff_toNat_le, UInt8.le_iff_toNat_le]
  rfl

/-- A tail octet adds six bits. -/
theorem toNat_addTail (code : UInt32) {octet : UInt8} (hc : code.toNat < 2 ^ 26) (ht : isTail octet = true) :
    (addTail code octet).toNat = code.toNat * 64 + (octet.toNat - 128) := by
  obtain ⟨hlow, hhigh⟩ := (isTail_iff octet).mp ht
  have htail : (octet &&& 0x3F).toUInt32.toNat = octet.toNat - 128 := by
    have hmod : octet.toNat &&& 0x3F = octet.toNat % 64 := Nat.and_two_pow_sub_one_eq_mod octet.toNat 6
    rw [UInt8.toNat_toUInt32, UInt8.toNat_and]
    show octet.toNat &&& 0x3F = _
    omega
  have hcode : (code <<< 6).toNat = code.toNat <<< 6 := by
    rw [UInt32.toNat_shiftLeft, Nat.shiftLeft_eq, Nat.shiftLeft_eq]
    show code.toNat * 2 ^ 6 % 2 ^ 32 = code.toNat * 2 ^ 6
    omega
  rw [addTail, UInt32.toNat_or, htail, hcode, ← Nat.shiftLeft_add_eq_or_of_lt (by omega), Nat.shiftLeft_eq]

theorem toNat_leadBits (lead : UInt8) :
    (leadBits lead 0).toNat = lead.toNat ∧ (leadBits lead 1).toNat = lead.toNat % 32 ∧
      (leadBits lead 2).toNat = lead.toNat % 16 ∧ (leadBits lead 3).toNat = lead.toNat % 8 := by
  refine ⟨UInt8.toNat_toUInt32 _, ?_, ?_, ?_⟩
  · exact (UInt8.toNat_toUInt32 _).trans ((UInt8.toNat_and ..).trans (Nat.and_two_pow_sub_one_eq_mod lead.toNat 5))
  · exact (UInt8.toNat_toUInt32 _).trans ((UInt8.toNat_and ..).trans (Nat.and_two_pow_sub_one_eq_mod lead.toNat 4))
  · exact (UInt8.toNat_toUInt32 _).trans ((UInt8.toNat_and ..).trans (Nat.and_two_pow_sub_one_eq_mod lead.toNat 3))

theorem isSecond_isTail {lead second : UInt8} (h : isSecond lead second = true) : isTail second = true := by
  rw [isSecond, Bool.and_eq_true] at h
  exact h.1

/-- The bounds of a second octet, which leave out the overlong forms, the surrogates and what is too great. -/
theorem isSecond_bounds {lead second : UInt8} (h : isSecond lead second = true) :
    (lead.toNat = 0xE0 → 160 ≤ second.toNat) ∧ (lead.toNat = 0xED → second.toNat ≤ 159) ∧
      (lead.toNat = 0xF0 → 144 ≤ second.toNat) ∧ (lead.toNat = 0xF4 → second.toNat ≤ 143) := by
  have hlead : ∀ n : UInt8, lead.toNat = n.toNat → lead = n := fun n hn => UInt8.toNat_inj.mp hn
  rw [isSecond, Bool.and_eq_true] at h
  refine ⟨fun he => ?_, fun he => ?_, fun he => ?_, fun he => ?_⟩
  · rw [hlead 0xE0 he] at h
    exact UInt8.le_iff_toNat_le.mp (of_decide_eq_true h.2)
  · rw [hlead 0xED he] at h
    exact UInt8.le_iff_toNat_le.mp (of_decide_eq_true h.2)
  · rw [hlead 0xF0 he] at h
    exact UInt8.le_iff_toNat_le.mp (of_decide_eq_true h.2)
  · rw [hlead 0xF4 he] at h
    exact UInt8.le_iff_toNat_le.mp (of_decide_eq_true h.2)

/-! ## The octets of a character -/

/-- The number of an octet spells the octet. -/
theorem ofNat_eq (octet : UInt8) {n : Nat} (h : n = octet.toNat) : UInt8.ofNat n = octet := by
  rw [h, UInt8.ofNat_toNat]

theorem toNat_val_ofNat {n : Nat} (h : n.isValidChar) : (Char.ofNat n).val.toNat = n := by
  unfold Char.ofNat
  rw [dif_pos h]
  rfl

/-- A lead octet without tail octets is the character. -/
theorem utf8EncodeChar_one {lead : UInt8} (hl : lead.toNat ≤ 127) :
    String.utf8EncodeChar (Char.ofNat (leadBits lead 0).toNat) = [lead] := by
  have hcode := (toNat_leadBits lead).1
  have hv := toNat_val_ofNat (n := (leadBits lead 0).toNat) (.inl (by omega))
  simp only [String.utf8EncodeChar, hv]
  rw [if_pos (by omega), ofNat_eq lead hcode]

/-- A lead octet with one tail octet is the sequence of their character. -/
theorem utf8EncodeChar_two {lead second : UInt8} (hl : 194 ≤ lead.toNat ∧ lead.toNat ≤ 223) (hs : isTail second = true) :
    String.utf8EncodeChar (Char.ofNat (addTail (leadBits lead 1) second).toNat) = [lead, second] := by
  have hlead := (toNat_leadBits lead).2.1
  have hsecond := (isTail_iff second).mp hs
  have hcode := toNat_addTail (leadBits lead 1) (by omega) hs
  have hv := toNat_val_ofNat (n := (addTail (leadBits lead 1) second).toNat) (.inl (by omega))
  simp only [String.utf8EncodeChar, hv]
  rw [if_neg (by omega), if_pos (by omega), ofNat_eq lead (by omega), ofNat_eq second (by omega)]

/-- A lead octet with two tail octets is the sequence of their character, unless the sequence is overlong or a surrogate. -/
theorem utf8EncodeChar_three {lead second third : UInt8} (hl : 224 ≤ lead.toNat ∧ lead.toNat ≤ 239)
    (hs : isSecond lead second = true) (ht : isTail third = true) :
    String.utf8EncodeChar (Char.ofNat (addTail (addTail (leadBits lead 2) second) third).toNat) = [lead, second, third] := by
  have hlead := (toNat_leadBits lead).2.2.1
  have hbounds := isSecond_bounds hs
  have hsecond := (isTail_iff second).mp (isSecond_isTail hs)
  have hthird := (isTail_iff third).mp ht
  have hfirst := toNat_addTail (leadBits lead 2) (by omega) (isSecond_isTail hs)
  have hcode := toNat_addTail (addTail (leadBits lead 2) second) (by omega) ht
  have hv := toNat_val_ofNat (n := (addTail (addTail (leadBits lead 2) second) third).toNat)
    (by unfold Nat.isValidChar; omega)
  simp only [String.utf8EncodeChar, hv]
  rw [if_neg (by omega), if_neg (by omega), if_pos (by omega), ofNat_eq lead (by omega),
    ofNat_eq second (by omega), ofNat_eq third (by omega)]

/-- A lead octet with three tail octets is the sequence of their character, unless the sequence is overlong or too great. -/
theorem utf8EncodeChar_four {lead second third fourth : UInt8} (hl : 240 ≤ lead.toNat ∧ lead.toNat ≤ 244)
    (hs : isSecond lead second = true) (ht : isTail third = true) (hf : isTail fourth = true) :
    String.utf8EncodeChar (Char.ofNat (addTail (addTail (addTail (leadBits lead 3) second) third) fourth).toNat) =
      [lead, second, third, fourth] := by
  have hlead := (toNat_leadBits lead).2.2.2
  have hbounds := isSecond_bounds hs
  have hsecond := (isTail_iff second).mp (isSecond_isTail hs)
  have hthird := (isTail_iff third).mp ht
  have hfourth := (isTail_iff fourth).mp hf
  have hfirst := toNat_addTail (leadBits lead 3) (by omega) (isSecond_isTail hs)
  have hnext := toNat_addTail (addTail (leadBits lead 3) second) (by omega) ht
  have hcode := toNat_addTail (addTail (addTail (leadBits lead 3) second) third) (by omega) hf
  have hv := toNat_val_ofNat (n := (addTail (addTail (addTail (leadBits lead 3) second) third) fourth).toNat)
    (by unfold Nat.isValidChar; omega)
  simp only [String.utf8EncodeChar, hv]
  rw [if_neg (by omega), if_neg (by omega), if_neg (by omega), ofNat_eq lead (by omega),
    ofNat_eq second (by omega), ofNat_eq third (by omega), ofNat_eq fourth (by omega)]

/-! ## Reading a character -/

/-- The tail octets that are read stand in front of what is left. -/
theorem takeTails_succ {code : UInt32} {count : Nat} {text : List UInt8} {found : UInt32 × List UInt8}
    (h : takeTails code (count + 1) text = some found) :
    ∃ octet rest, text = octet :: rest ∧ isTail octet = true ∧ takeTails (addTail code octet) count rest = some found := by
  cases text with
  | nil => cases h
  | cons octet rest =>
    rw [takeTails] at h
    split at h
    · exact ⟨octet, rest, rfl, ‹_›, h⟩
    · cases h

/-- What a lead octet announces. -/
theorem tailCount?_eq_some {lead : UInt8} {tails : Nat} (h : tailCount? lead = some tails) :
    (tails = 0 ∧ lead.toNat ≤ 127) ∨ (tails = 1 ∧ 194 ≤ lead.toNat ∧ lead.toNat ≤ 223) ∨
      (tails = 2 ∧ 224 ≤ lead.toNat ∧ lead.toNat ≤ 239) ∨ (tails = 3 ∧ 240 ≤ lead.toNat ∧ lead.toNat ≤ 244) := by
  simp only [tailCount?, Bool.and_eq_true, decide_eq_true_eq, UInt8.le_iff_toNat_le, UInt8.reduceToNat] at h
  split at h
  · cases h
    omega
  split at h
  · cases h
    omega
  split at h
  · cases h
    omega
  split at h
  · cases h
    omega
  · cases h

/-- The character at the front has the octets it is read from as its sequence. -/
theorem eq_of_scalar? {text : List UInt8} {found : UInt32 × List UInt8} (h : scalar? text = some found) :
    text = String.utf8EncodeChar (Char.ofNat found.1.toNat) ++ found.2 := by
  cases text with
  | nil => cases h
  | cons lead rest =>
    rw [scalar?.eq_def] at h
    simp only at h
    split at h
    · cases h
    · rename_i ht
      cases h
      have hlead : lead.toNat ≤ 127 := by
        have := tailCount?_eq_some ht
        omega
      rw [utf8EncodeChar_one hlead]
      rfl
    · cases h
    · rename_i tails second rest _ ht
      split at h
      · rename_i hsecond
        rcases tailCount?_eq_some ht with ⟨rfl, -⟩ | ⟨rfl, hlead⟩ | ⟨rfl, hlead⟩ | ⟨rfl, hlead⟩
        · exact absurd rfl ‹_›
        · obtain ⟨_, _, hcons, hs, h⟩ := takeTails_succ h
          cases hcons
          cases h
          rw [utf8EncodeChar_two hlead hs]
          rfl
        · obtain ⟨_, _, hcons, -, h⟩ := takeTails_succ h
          cases hcons
          obtain ⟨third, rest, rfl, hthird, h⟩ := takeTails_succ h
          cases h
          rw [utf8EncodeChar_three hlead hsecond hthird]
          rfl
        · obtain ⟨_, _, hcons, -, h⟩ := takeTails_succ h
          cases hcons
          obtain ⟨third, rest, rfl, hthird, h⟩ := takeTails_succ h
          obtain ⟨fourth, rest, rfl, hfourth, h⟩ := takeTails_succ h
          cases h
          rw [utf8EncodeChar_four hlead hsecond hthird hfourth]
          rfl
      · cases h

/-! ## Whole texts -/

/-- Legal octets spell the characters whose octets they are. -/
theorem exists_decodeList {text : List UInt8} (h : isLegalList text = true) (sofar : List Char) :
    ∃ chars, decodeList sofar text = sofar.reverse ++ chars ∧ chars.flatMap String.utf8EncodeChar = text := by
  fun_induction isLegalList text generalizing sofar with
  | case1 text hempty =>
    obtain rfl := List.isEmpty_iff.mp hempty
    exact ⟨[], by rw [decodeList, List.append_nil], rfl⟩
  | case2 text hempty hnone => cases h
  | case3 text hempty found hfound ih =>
    obtain ⟨chars, hchars, hspelled⟩ := ih h (Char.ofNat found.1.toNat :: sofar)
    refine ⟨Char.ofNat found.1.toNat :: chars, ?_, ?_⟩
    · cases text with
      | nil => cases hfound
      | cons octet rest =>
        rw [decodeList]
        split
        · rename_i other hother
          cases hfound.symm.trans hother
          rw [hchars, List.reverse_cons, List.append_assoc]
          rfl
        · rename_i hother
          cases hfound.symm.trans hother
    · rw [List.flatMap_cons, hspelled, ← eq_of_scalar? hfound]

/-- The text that legal octets spell has these octets. -/
theorem ofText_toText {text : Octets} (h : isLegal text = true) : ofText (toText text) = text := by
  obtain ⟨chars, hchars, hspelled⟩ := exists_decodeList h []
  rw [toText, hchars, List.reverse_nil, List.nil_append, ofText, String.toUTF8, String.toByteArray_ofList, List.utf8Encode,
    hspelled, List.data_toByteArray, Array.toArray_toList]

/-- Seven-bit characters are legal. -/
theorem isLegalList_of_lt {text : List UInt8} (h : ∀ octet ∈ text, octet < 0x80) : isLegalList text = true := by
  induction text with
  | nil => rw [isLegalList]; rfl
  | cons octet rest ih =>
    have hle : octet ≤ 0x7F := by
      have := h octet (List.mem_cons_self ..)
      rw [UInt8.lt_iff_toNat_lt] at this
      rw [UInt8.le_iff_toNat_le]
      exact Nat.le_of_lt_succ this
    have hscalar : scalar? (octet :: rest) = some (leadBits octet 0, rest) := by
      have htail : tailCount? octet = some 0 := if_pos hle
      simp only [scalar?, htail]
    rw [isLegalList, if_neg (by simp)]
    split
    · rename_i hnone
      rw [hscalar] at hnone
      cases hnone
    · rename_i found hfound
      rw [hscalar] at hfound
      cases hfound
      exact ih fun other hm => h other (List.mem_cons_of_mem _ hm)

/-! ## The octets of a text -/

/-- What a lead octet announces, by its number. -/
theorem tailCount?_of_bounds {lead : UInt8} :
    (lead.toNat ≤ 127 → tailCount? lead = some 0) ∧
      (194 ≤ lead.toNat ∧ lead.toNat ≤ 223 → tailCount? lead = some 1) ∧
      (224 ≤ lead.toNat ∧ lead.toNat ≤ 239 → tailCount? lead = some 2) ∧
      (240 ≤ lead.toNat ∧ lead.toNat ≤ 244 → tailCount? lead = some 3) := by
  simp only [tailCount?, Bool.and_eq_true, decide_eq_true_eq, UInt8.le_iff_toNat_le, UInt8.reduceToNat]
  refine ⟨fun h => ?_, fun h => ?_, fun h => ?_, fun h => ?_⟩
  · rw [if_pos h]
  · rw [if_neg (by omega), if_pos h]
  · rw [if_neg (by omega), if_neg (by omega), if_pos h]
  · rw [if_neg (by omega), if_neg (by omega), if_neg (by omega), if_pos h]

/-- A tail octet may follow a lead octet if it is within the bounds for it. -/
theorem isSecond_of_bounds {lead second : UInt8} (ht : isTail second = true)
    (h : (lead.toNat = 0xE0 → 160 ≤ second.toNat) ∧ (lead.toNat = 0xED → second.toNat ≤ 159) ∧
      (lead.toNat = 0xF0 → 144 ≤ second.toNat) ∧ (lead.toNat = 0xF4 → second.toNat ≤ 143)) :
    isSecond lead second = true := by
  obtain ⟨hover, hsurrogate, hover', hgreat⟩ := h
  rw [isSecond, ht, Bool.true_and]
  split
  · rename_i hl
    exact decide_eq_true (UInt8.le_iff_toNat_le.mpr (hover (congrArg UInt8.toNat hl)))
  split
  · rename_i hl
    exact decide_eq_true (UInt8.le_iff_toNat_le.mpr (hsurrogate (congrArg UInt8.toNat hl)))
  split
  · rename_i hl
    exact decide_eq_true (UInt8.le_iff_toNat_le.mpr (hover' (congrArg UInt8.toNat hl)))
  split
  · rename_i hl
    exact decide_eq_true (UInt8.le_iff_toNat_le.mpr (hgreat (congrArg UInt8.toNat hl)))
  · rfl

/-- A lead octet is read with its tail octets, the first of which may follow it. -/
theorem scalar?_cons {lead second : UInt8} (more rest : List UInt8) (hcount : tailCount? lead = some (more.length + 1))
    (hsecond : isSecond lead second = true) (htails : ∀ octet ∈ more, isTail octet = true) :
    ∃ code, scalar? (lead :: second :: (more ++ rest)) = some (code, rest) := by
  have htake : ∀ (octets : List UInt8) (code : UInt32), (∀ octet ∈ octets, isTail octet = true) →
      ∃ code', takeTails code octets.length (octets ++ rest) = some (code', rest) := by
    intro octets
    induction octets with
    | nil => exact fun code _ => ⟨code, rfl⟩
    | cons octet octets ih =>
      intro code hall
      rw [List.length_cons, List.cons_append, takeTails, if_pos (hall octet (List.mem_cons_self ..))]
      exact ih _ fun other hm => hall other (List.mem_cons_of_mem _ hm)
  simp only [scalar?, hcount, hsecond, if_true]
  obtain ⟨code, hcode⟩ := htake (second :: more) (leadBits lead (more.length + 1)) fun octet hm => by
    rcases List.mem_cons.mp hm with rfl | hm
    · exact isSecond_isTail hsecond
    · exact htails octet hm
  exact ⟨code, hcode⟩

/-- The octets of a character are read as a character. -/
theorem exists_scalar? (char : Char) (rest : List UInt8) :
    ∃ code, scalar? (String.utf8EncodeChar char ++ rest) = some (code, rest) := by
  have hvalid : char.val.toNat < 0xD800 ∨ 0xDFFF < char.val.toNat ∧ char.val.toNat < 0x110000 := char.valid
  have hnat : ∀ n, n < 256 → (UInt8.ofNat n).toNat = n := fun n hn => by rw [UInt8.toNat_ofNat']; omega
  have htail : ∀ n, isTail (UInt8.ofNat (n % 64 + 128)) = true := fun n =>
    (isTail_iff _).mpr (by rw [hnat _ (by omega)]; omega)
  obtain ⟨v, hv⟩ : ∃ v, v = char.val.toNat := ⟨_, rfl⟩
  simp only [String.utf8EncodeChar]
  rw [← hv] at hvalid ⊢
  split
  · have hcount := tailCount?_of_bounds.1 (show (UInt8.ofNat v).toNat ≤ 127 by rw [hnat v (by omega)]; omega)
    exact ⟨leadBits (UInt8.ofNat v) 0, by simp only [List.cons_append, List.nil_append, scalar?, hcount]⟩
  split
  · have hlead := hnat (v / 64 % 32 + 192) (by omega)
    refine scalar?_cons [] rest (tailCount?_of_bounds.2.1 (by omega)) (isSecond_of_bounds (htail _) ?_) ?_
    · omega
    · exact fun octet hm => absurd hm List.not_mem_nil
  split
  · have hlead := hnat (v / 4096 % 16 + 224) (by omega)
    have hsecond := hnat (v / 64 % 64 + 128) (by omega)
    refine scalar?_cons [_] rest (tailCount?_of_bounds.2.2.1 (by omega)) (isSecond_of_bounds (htail _) ?_) ?_
    · omega
    · simp only [List.mem_singleton, forall_eq, htail]
  · have hlead := hnat (v / 262144 % 8 + 240) (by omega)
    have hsecond := hnat (v / 4096 % 64 + 128) (by omega)
    refine scalar?_cons [_, _] rest (tailCount?_of_bounds.2.2.2 (by omega)) (isSecond_of_bounds (htail _) ?_) ?_
    · omega
    · simp only [List.mem_cons, List.not_mem_nil, or_false, forall_eq_or_imp, forall_eq, htail, and_self]

/-- The octets of some characters are legal. -/
theorem isLegalList_flatMap (chars : List Char) : isLegalList (chars.flatMap String.utf8EncodeChar) = true := by
  induction chars with
  | nil => rw [List.flatMap_nil, isLegalList]; rfl
  | cons char chars ih =>
    obtain ⟨code, hcode⟩ := exists_scalar? char (chars.flatMap String.utf8EncodeChar)
    rw [List.flatMap_cons, isLegalList]
    split
    · rfl
    · split
      · rename_i hnone
        rw [hcode] at hnone
        cases hnone
      · rename_i found hfound
        rw [hcode] at hfound
        cases hfound
        exact ih

/-- The octets of a text are legal. -/
theorem isLegal_ofText (text : String) : isLegal (ofText text) = true := by
  have hoctets : (ofText text).toList = text.toList.flatMap String.utf8EncodeChar := by
    obtain ⟨chars, rfl⟩ : ∃ chars, text = String.ofList chars := ⟨text.toList, String.ofList_toList.symm⟩
    rw [ofText, String.toUTF8, String.toByteArray_ofList, List.utf8Encode, List.data_toByteArray, List.toList_toArray,
      String.toList_ofList]
  rw [isLegal, hoctets]
  exact isLegalList_flatMap _

end Utf8

/-- A legal text of any alphabet is legal UTF-8. -/
theorem CharacterString.isLegal_of_legal {alphabet : Alphabet} {text : Octets} (h : legal alphabet text = true) :
    Utf8.isLegal text = true := by
  by_cases ha : alphabet = .utf8
  · subst ha
    exact h
  · refine Utf8.isLegalList_of_lt fun octet hm => ?_
    obtain ⟨i, hi, rfl⟩ := Array.mem_iff_getElem.mp (Array.mem_toList_iff.mp hm)
    have hp := (legal_iff ha text).mp h i hi
    rw [permitsOctet, Bool.and_eq_true] at hp
    exact of_decide_eq_true hp.1

end UnalignedPer
