import UnalignedPer.Proofs.BitString
import UnalignedPer.Proofs.Value.Equality

/-!
# What a comparison looks at

The comparison of bit strings reads zeros outside their octets, so it does not show whether it stays inside. Here the comparison of
values is written over the octets that it looks at (`Value.sameOptionBy`). Where every octet can be looked at it is the comparison
(`Value.sameOptionBy_plainly`); where only those can that are there, it has a result as long as it stays inside.

Whatever it results in is right (`Value.checks_sameOption`): values compare as the same exactly when they match, with bit strings of
the same bits in octets that hold all of them. It stays inside when the octets of each bit string can be counted in a word
(`BitString.Countable`). The count of a longer one wraps around to zero, so that it is compared whatever octets there are.
-/

namespace UnalignedPer

/-! ## Comparing look by look -/

section

variable {m : Type → Type} [Monad m] (look : Octets → Nat → m UInt8)

namespace Octets

/-- The bit at a position, by a look at its octet. -/
def bitBy (data : Octets) (bit : Nat) : m Bool := do
  let octet ← look data (bit / 8)
  return octet &&& bitMask bit != 0

/-- `Octets.agreeOn`, look by look. -/
def agreeOnBy (a b : Octets) (start : Nat) : Nat → m Bool
  | 0 => pure true
  | count + 1 => do
    let x ← bitBy look a start
    let y ← bitBy look b start
    if x == y then agreeOnBy a b (start + 1) count else pure false

end Octets

/-- `BitString.same`, look by look. -/
def BitString.sameBy (a b : BitString) : m Bool :=
  if a.length = b.length ∧ (octetCount a.length).toNat ≤ a.octets.size ∧ (octetCount a.length).toNat ≤ b.octets.size then
    Octets.agreeOnBy look a.octets b.octets 0 a.length.toNat
  else pure false

namespace Value

mutual

/-- `Value.same`, look by look. Lists of different lengths are not gone through. -/
def sameBy : Value → Value → m Bool
  | bits a, bits b => a.sameBy look b
  | sequence as, sequence bs => if as.length = bs.length then sameListBy as bs else pure false
  | sequenceOf as, sequenceOf bs => if as.length = bs.length then sameListBy as bs else pure false
  | choice i a, choice j b => if i = j then sameOptionBy a b else pure false
  | a, b => pure (a.same b)

/-- `Value.sameOption`, look by look. -/
def sameOptionBy : Option Value → Option Value → m Bool
  | none, none => pure true
  | some a, some b => sameBy a b
  | _, _ => pure false

/-- `Value.sameList`, look by look. -/
def sameListBy : List (Option Value) → List (Option Value) → m Bool
  | [], [] => pure true
  | a :: as, b :: bs => do
    if ← sameOptionBy a b then sameListBy as bs else pure false
  | _, _ => pure false

end

end Value

end

namespace Octets

/-- Any octet, those outside as zeros. -/
def plainly (data : Octets) (index : Nat) : Id UInt8 :=
  octetAt data index

/-- An octet that is there. -/
def inside (data : Octets) (index : Nat) : Option UInt8 :=
  data[index]?

end Octets

/-! ## Where every octet can be looked at -/

theorem Octets.agreeOnBy_plainly (a b : Octets) (start count : Nat) : agreeOnBy plainly a b start count = agreeOn a b start count := by
  induction count generalizing start with
  | zero => rfl
  | succ count ih =>
    rw [agreeOn, ← ih]
    rfl

theorem BitString.sameBy_plainly (a b : BitString) : a.sameBy Octets.plainly b = a.same b := by
  unfold sameBy
  split
  · rename_i hc
    rw [Octets.agreeOnBy_plainly, same, hc.1, beq_self_eq_true, ← hc.1, decide_eq_true hc.2.1, decide_eq_true hc.2.2]
    rfl
  · rename_i hc
    refine (Bool.eq_false_iff.mpr fun h => hc ?_).symm
    rw [same_eq_true_iff] at h
    exact ⟨h.1, h.2.1, h.2.2.1⟩

namespace Value

theorem sameListBy_plainly {as : List (Option Value)} (h : ∀ a ∈ as, ∀ b, sameOptionBy Octets.plainly a b = sameOption a b)
    (bs : List (Option Value)) : sameListBy Octets.plainly as bs = sameList as bs := by
  induction as generalizing bs with
  | nil => cases bs <;> rfl
  | cons a as ih =>
    cases bs with
    | nil => rfl
    | cons b bs =>
      have hhead := h a (List.mem_cons_self ..) b
      have htail := ih (fun x hm => h x (List.mem_cons_of_mem _ hm)) bs
      rw [sameList, ← hhead, ← htail, sameListBy]
      cases sameOptionBy Octets.plainly a b <;> rfl

/-- Where every octet can be looked at, it is the comparison. -/
theorem sameOptionBy_plainly (a b : Option Value) : sameOptionBy Octets.plainly a b = sameOption a b := by
  induction a using place_induction generalizing b with
  | absent => cases b <;> rfl
  | present a ih =>
    cases b with
    | none => rfl
    | some b =>
      have hlist : ∀ bs, (if a.children.length = bs.length then sameListBy Octets.plainly a.children bs else pure false) =
          sameList a.children bs := by
        intro bs
        split
        · exact sameListBy_plainly ih bs
        · rename_i hlength
          exact (Bool.eq_false_iff.mpr fun h => hlength ((sameList_iff _ _).mp h).length_eq).symm
      cases a <;> cases b <;> first | rfl | skip
      case bits.bits a b => exact a.sameBy_plainly b
      case sequence.sequence as bs => exact hlist bs
      case sequenceOf.sequenceOf as bs => exact hlist bs
      case choice.choice i a j b =>
        rw [sameOptionBy, sameBy, ih a (List.mem_singleton_self a), sameOption, same]
        by_cases hij : i = j
        · rw [if_pos hij, hij, beq_self_eq_true, Bool.true_and]
        · rw [if_neg hij, beq_false_of_ne hij]
          rfl

end Value

/-! ## Where only octets that are there can be looked at -/

/-- What is known of a comparison that ends where it leaves the octets: a result is that of the plain comparison, it is positive
exactly when what is compared matches, and under some condition there is one. -/
structure Checks (found : Option Bool) (plain : Bool) (matching safe : Prop) : Prop where
  /-- A result is that of the plain comparison. -/
  right : ∀ result, found = some result → result = plain
  /-- A positive result tells a match, and a match has one. -/
  positive : found = some true ↔ matching
  /-- There is a result. -/
  safe : safe → found.isSome = true

namespace Checks

variable {found found' : Option Bool} {plain plain' : Bool} {matching matching' safe safe' : Prop}

theorem of_pure (result : Bool) : Checks (pure result) result (result = true) True where
  right _ h := (Option.some.inj h).symm
  positive := by rw [Option.pure_def, Option.some_inj]
  safe _ := rfl

/-- Where it is safe the plain comparison is right. -/
theorem eq_some (h : Checks found plain matching safe) (hs : safe) : found = some plain := by
  obtain ⟨result, hresult⟩ := Option.isSome_iff_exists.mp (h.safe hs)
  rw [hresult, h.right result hresult]

theorem congr (h : Checks found plain matching safe) (hp : plain = plain') (hm : matching ↔ matching') (hs : safe' → safe) :
    Checks found plain' matching' safe' where
  right result hr := (h.right result hr).trans hp
  positive := h.positive.trans hm
  safe hsafe := h.safe (hs hsafe)

/-- Comparisons in a row, up to the first that is negative. -/
theorem and (h : Checks found plain matching safe) (h' : Checks found' plain' matching' safe') :
    Checks (found >>= fun result => if result then found' else pure false) (plain && plain') (matching ∧ matching')
      (safe ∧ safe') := by
  cases found with
  | none =>
    have hnot : ¬matching := fun hm => nomatch h.positive.mpr hm
    exact ⟨nofun, iff_of_false nofun fun hm => hnot hm.1, fun hs => nomatch h.safe hs.1⟩
  | some result =>
    obtain rfl := h.right result rfl
    cases result with
    | true => exact h'.congr (Bool.true_and _).symm (and_iff_right (h.positive.mp rfl)).symm And.right
    | false =>
      have hnot : ¬matching := fun hm => nomatch h.positive.mpr hm
      exact (of_pure false).congr (Bool.false_and _).symm (by simp [hnot]) fun _ => trivial

/-- A comparison that is made if a condition holds. -/
theorem ite {c : Prop} [Decidable c] (h : c → Checks found plain matching safe) :
    Checks (if c then found else pure false) (decide c && plain) (c ∧ matching) (c → safe) := by
  by_cases hc : c
  · rw [if_pos hc]
    exact (h hc).congr (by rw [decide_eq_true hc, Bool.true_and]) (and_iff_right hc).symm fun hs => hs hc
  · rw [if_neg hc]
    exact (of_pure false).congr (by rw [decide_eq_false hc, Bool.false_and]) (by simp [hc]) fun _ => trivial

end Checks

/-! ## Bits -/

namespace Octets

/-- Looking at a bit gives it if its octet is there. -/
theorem bitBy_inside (data : Octets) (bit : Nat) :
    bitBy inside data bit = if bit < data.size * 8 then some (getBit data bit) else none := by
  unfold bitBy inside getBit octetAt
  by_cases h : bit < data.size * 8
  · have hi : bit / 8 < data.size := by omega
    rw [if_pos h, Array.getD_eq_getD_getElem?, Array.getElem?_eq_getElem hi]
    rfl
  · rw [if_neg h, Array.getElem?_eq_none (by omega)]
    rfl

/-- Two bits are compared. -/
theorem checks_bit (a b : Octets) (bit : Nat) :
    Checks (do
        let x ← bitBy inside a bit
        let y ← bitBy inside b bit
        pure (x == y)) (getBit a bit == getBit b bit)
      (bit < a.size * 8 ∧ bit < b.size * 8 ∧ getBit a bit = getBit b bit) (bit < a.size * 8 ∧ bit < b.size * 8) := by
  rw [bitBy_inside, bitBy_inside]
  by_cases ha : bit < a.size * 8
  · by_cases hb : bit < b.size * 8
    · rw [if_pos ha, if_pos hb]
      exact (Checks.of_pure _).congr rfl (by simp [ha, hb]) fun _ => trivial
    · rw [if_pos ha, if_neg hb]
      exact ⟨nofun, iff_of_false nofun fun h => hb h.2.1, fun h => absurd h.2 hb⟩
  · rw [if_neg ha]
    exact ⟨nofun, iff_of_false nofun fun h => ha h.1, fun h => absurd h.1 ha⟩

/-- Runs of bits agree exactly where all of them are there and the same. -/
theorem checks_agreeOn (a b : Octets) (start count : Nat) :
    Checks (agreeOnBy inside a b start count) (agreeOn a b start count)
      (∀ bit, start ≤ bit → bit < start + count → bit < a.size * 8 ∧ bit < b.size * 8 ∧ getBit a bit = getBit b bit)
      (start + count ≤ a.size * 8 ∧ start + count ≤ b.size * 8) := by
  induction count generalizing start with
  | zero => exact (Checks.of_pure true).congr rfl (iff_of_true rfl fun bit h h' => absurd h (by omega)) fun _ => trivial
  | succ count ih =>
    have hstep := (checks_bit a b start).and (ih (start + 1))
    -- The two looks and the comparison of what they give are one step of a row.
    have hrun : agreeOnBy inside a b start (count + 1) =
        (do
          let x ← bitBy inside a start
          let y ← bitBy inside b start
          pure (x == y)) >>= fun result => if result then agreeOnBy inside a b (start + 1) count else pure false := by
      simp only [agreeOnBy, bind_assoc, pure_bind]
    rw [hrun]
    refine hstep.congr ?_ ⟨?_, fun h => ⟨h start (by omega) (by omega), fun bit hl hr => h bit (by omega) (by omega)⟩⟩ (by omega)
    · rw [agreeOn]
      cases getBit a start == getBit b start <;> rfl
    · rintro ⟨hfirst, hrest⟩ bit hl hr
      rcases Nat.eq_or_lt_of_le hl with rfl | hlt
      · exact hfirst
      · exact hrest bit hlt (by omega)

end Octets

namespace BitString

/-- The octets of a bit string of this length can be counted in a word. -/
def Countable (value : BitString) : Prop :=
  value.length.toNat < 2 ^ 64 - 7

/-- Two bit strings have the same bits, and their octets hold all of them. -/
structure Alike (a b : BitString) : Prop where
  /-- There are as many bits. -/
  length : a.length = b.length
  /-- The octets of the one hold them. -/
  left : a.covered = true
  /-- The octets of the other one hold them. -/
  right : b.covered = true
  /-- The bits are the same. -/
  bits : ∀ i < a.length.toNat, Octets.getBit a.octets i = Octets.getBit b.octets i

theorem toNat_octetCount_of_countable {value : BitString} (h : value.Countable) :
    (octetCount value.length).toNat = Octets.countFor value.length.toNat := by
  unfold Countable at h
  rw [octetCount, UInt64.toNat_div, UInt64.toNat_add, Octets.countFor, Nat.mod_eq_of_lt]
  · rfl
  · exact Nat.add_lt_of_lt_sub h

/-- The octets of a bit string that is too long are not counted. -/
theorem toNat_octetCount_of_not_countable {value : BitString} (h : ¬value.Countable) : (octetCount value.length).toNat = 0 := by
  have hlt := value.length.toNat_lt
  unfold Countable at h
  rw [octetCount, UInt64.toNat_div, UInt64.toNat_add, show (7 : UInt64).toNat = 7 from rfl, show (8 : UInt64).toNat = 8 from rfl]
  omega

/-- A comparison of bit strings is right, and stays inside if the octets of one of them can be counted. -/
theorem checks_same (a b : BitString) :
    Checks (a.sameBy Octets.inside b) (a.same b) (a.Alike b) (a.Countable ∨ b.Countable) := by
  have hrun := Checks.ite (c := a.length = b.length ∧ (octetCount a.length).toNat ≤ a.octets.size ∧
    (octetCount a.length).toNat ≤ b.octets.size) fun _ => Octets.checks_agreeOn a.octets b.octets 0 a.length.toNat
  refine hrun.congr ?_ ⟨?_, ?_⟩ ?_
  · rw [Bool.eq_iff_iff]
    simp only [same, Bool.and_eq_true, decide_eq_true_eq, beq_iff_eq, and_assoc]
  · rintro ⟨⟨hlength, -, -⟩, hbits⟩
    have hroom : a.length.toNat ≤ a.octets.size * 8 ∧ a.length.toNat ≤ b.octets.size * 8 := by
      rcases Nat.eq_zero_or_pos a.length.toNat with hzero | hpos
      · omega
      · have hlast := hbits (a.length.toNat - 1) (Nat.zero_le _) (by omega)
        omega
    exact ⟨hlength, decide_eq_true hroom.1, decide_eq_true (hlength ▸ hroom.2), fun i hi =>
      (hbits i (Nat.zero_le i) (by omega)).2.2⟩
  · rintro ⟨hlength, ha, hb, hbits⟩
    have ha' := of_decide_eq_true ha
    have hb' := of_decide_eq_true hb
    have hcount := toNat_octetCount_le a.length
    rw [← hlength] at hb'
    unfold Octets.countFor at hcount
    exact ⟨⟨hlength, by omega, by omega⟩, fun i _ hi => ⟨by omega, by omega, hbits i (by omega)⟩⟩
  · rintro hc ⟨hlength, ha, hb⟩
    have ha' : a.Countable := by
      unfold Countable at hc ⊢
      rwa [← hlength, or_self] at hc
    rw [toNat_octetCount_of_countable ha', Octets.countFor] at ha hb
    omega

/-- A bit string that is too long is compared with one that has no octets at all. -/
theorem sameBy_of_not_countable {value : BitString} (h : ¬value.Countable) :
    value.sameBy Octets.inside ⟨#[], value.length⟩ = none := by
  have hcount := toNat_octetCount_of_not_countable h
  unfold Countable at h
  obtain ⟨count, hn⟩ := Nat.exists_eq_add_of_lt (show 0 < value.length.toNat by omega)
  -- Both counts are zero, so the comparison starts, and its second look finds nothing.
  rw [sameBy, if_pos ⟨rfl, by omega, by simp [hcount]⟩, hn, Octets.agreeOnBy, Octets.bitBy_inside #[]]
  cases Octets.bitBy Octets.inside value.octets 0 <;> rfl

/-- The comparison of a bit string with any other stays inside exactly when its octets can be counted. -/
theorem isSome_sameBy_iff (value : BitString) :
    (∀ other, (value.sameBy Octets.inside other).isSome = true) ↔ value.Countable := by
  refine ⟨fun h => ?_, fun hc other => (value.checks_same other).safe (.inl hc)⟩
  by_contra hnot
  exact absurd (h ⟨#[], value.length⟩) (by rw [sameBy_of_not_countable hnot]; exact Bool.false_ne_true)

/-- A bit string is alike itself if its octets hold it. -/
theorem alike_self_iff (value : BitString) : value.Alike value ↔ value.covered = true :=
  ⟨Alike.left, fun h => ⟨rfl, h, h, fun _ _ => rfl⟩⟩

end BitString

/-! ## Values -/

namespace Value

/-- Lists are compared value by value. -/
theorem checks_sameList {as : List (Option Value)}
    (h : ∀ a ∈ as, ∀ b, Checks (sameOptionBy Octets.inside a b) (sameOption a b) (Matched BitString.Alike a b)
      (Holding BitString.Countable a ∨ Holding BitString.Countable b)) (bs : List (Option Value)) :
    Checks (sameListBy Octets.inside as bs) (sameList as bs) (List.Forall₂ (Matched BitString.Alike) as bs)
      ((∀ a ∈ as, Holding BitString.Countable a) ∨ ∀ b ∈ bs, Holding BitString.Countable b) := by
  induction as generalizing bs with
  | nil =>
    cases bs with
    | nil => exact (Checks.of_pure true).congr rfl (iff_of_true rfl .nil) fun _ => trivial
    | cons b bs => exact (Checks.of_pure false).congr rfl (iff_of_false Bool.false_ne_true nofun) fun _ => trivial
  | cons a as ih =>
    cases bs with
    | nil => exact (Checks.of_pure false).congr rfl (iff_of_false Bool.false_ne_true nofun) fun _ => trivial
    | cons b bs =>
      have hlist := (h a (List.mem_cons_self ..) b).and (ih (fun x hm => h x (List.mem_cons_of_mem _ hm)) bs)
      refine hlist.congr rfl List.forall₂_cons.symm fun hs => ?_
      rw [List.forall_mem_cons, List.forall_mem_cons] at hs
      exact ⟨hs.imp And.left And.left, hs.imp And.right And.right⟩

/-- A comparison of values is right, and stays inside if the octets of each bit string in one of them can be counted. -/
theorem checks_sameOption (a b : Option Value) :
    Checks (sameOptionBy Octets.inside a b) (sameOption a b) (Matched BitString.Alike a b)
      (Holding BitString.Countable a ∨ Holding BitString.Countable b) := by
  induction a using place_induction generalizing b with
  | absent =>
    cases b with
    | none => exact (Checks.of_pure true).congr rfl (iff_of_true rfl .absent) fun _ => trivial
    | some b => exact (Checks.of_pure false).congr rfl (iff_of_false Bool.false_ne_true nofun) fun _ => trivial
  | present a ih =>
    cases b with
    | none => exact (Checks.of_pure false).congr rfl (iff_of_false Bool.false_ne_true nofun) fun _ => trivial
    | some b =>
      have hlist : ∀ bs, Checks (if a.children.length = bs.length then sameListBy Octets.inside a.children bs else pure false)
          (sameList a.children bs) (List.Forall₂ (Matched BitString.Alike) a.children bs)
          ((∀ child ∈ a.children, Holding BitString.Countable child) ∨ ∀ child ∈ bs, Holding BitString.Countable child) := by
        intro bs
        refine (Checks.ite fun _ => checks_sameList ih bs).congr ?_ (and_iff_right_of_imp List.Forall₂.length_eq) fun h _ => h
        rw [Bool.eq_iff_iff, Bool.and_eq_true, decide_eq_true_eq]
        exact and_iff_right_of_imp fun h => ((sameList_iff _ _).mp h).length_eq
      rw [matched_some, holding_some, holding_some]
      -- Values of different kinds, and those without children other than bit strings, are compared without a look.
      cases a <;> cases b
      case bits.bits a b =>
        exact (a.checks_same b).congr rfl (by simp [Like, children]) (Or.imp (fun h => h.1 a rfl) fun h => h.1 b rfl)
      case sequence.sequence as bs =>
        exact (hlist bs).congr rfl (by simp [Like, children]) (Or.imp And.right And.right)
      case sequenceOf.sequenceOf as bs =>
        exact (hlist bs).congr rfl (by simp [Like, children]) (Or.imp And.right And.right)
      case choice.choice i a j b =>
        have hpayload := Checks.ite (c := i = j) fun _ => ih a (List.mem_singleton_self a) b
        refine hpayload.congr rfl (by simp [Like, children]) fun h _ => ?_
        exact h.imp (fun h => h.2 a (List.mem_singleton_self a)) fun h => h.2 b (List.mem_singleton_self b)
      all_goals exact (Checks.of_pure _).congr rfl (by simp [same, Like, children]) fun _ => trivial

/-- The comparison of values is equality of their structure. Written over the octets that it looks at it is the comparison, and it
is positive exactly where values match, with bit strings of the same bits in octets that hold all of them. If the octets of every bit
string in one of the two can be counted in a word, it looks at no octet that is not there, and the comparison itself is right; a
value is then the same as itself exactly when all its bit strings are held. It is symmetric and transitive in any case. Only bit
strings that can be counted are safe to compare with all others. -/
theorem sameOption_structural (a b : Option Value) :
    sameOptionBy Octets.plainly a b = sameOption a b ∧
    (sameOptionBy Octets.inside a b = some true ↔ Matched BitString.Alike a b) ∧
    (Holding BitString.Countable a ∨ Holding BitString.Countable b →
      sameOptionBy Octets.inside a b = some (sameOption a b) ∧ (sameOption a b = true ↔ Matched BitString.Alike a b)) ∧
    sameOption a b = sameOption b a ∧
    (∀ c, sameOption a b = true → sameOption b c = true → sameOption a c = true) ∧
    (Holding BitString.Countable a → (sameOption a a = true ↔ Holding (fun run => run.covered = true) a)) ∧
    ∀ run, a = some (bits run) → ((∀ other, (sameOptionBy Octets.inside a other).isSome = true) ↔ run.Countable) := by
  have hright : ∀ b, Holding BitString.Countable a ∨ Holding BitString.Countable b →
      sameOptionBy Octets.inside a b = some (sameOption a b) ∧ (sameOption a b = true ↔ Matched BitString.Alike a b) := by
    intro b h
    have hresult := (checks_sameOption a b).eq_some h
    refine ⟨hresult, ?_⟩
    rw [← (checks_sameOption a b).positive, hresult, Option.some_inj]
  refine ⟨sameOptionBy_plainly a b, (checks_sameOption a b).positive, hright b, sameOption_comm a b, fun _ => sameOption_trans,
    fun h => ?_, ?_⟩
  · rw [(hright a (.inl h)).2, matched_self_iff]
    simp only [BitString.alike_self_iff]
  · rintro run rfl
    refine ⟨fun h => run.isSome_sameBy_iff.mp fun other => h (some (bits other)), fun h b => ?_⟩
    refine (checks_sameOption (some (bits run)) b).safe (.inl (.present (fun other heq => ?_) nofun))
    rwa [← Value.bits.inj heq]

/-- A field that is absent and one of five bits, in an octet with other bits behind them or in two octets; and the same bits without
an octet. -/
theorem sameOption_structural_masks :
    let mask (octets : Octets) : Option Value := some (.sequence [none, some (.bits ⟨octets, 5⟩)])
    Holding BitString.Countable (mask #[0xA7]) ∧
      sameOptionBy Octets.inside (mask #[0xA7]) (mask #[0xA0, 0xFF]) = some true ∧
      Matched BitString.Alike (mask #[0xA7]) (mask #[0xA0, 0xFF]) ∧
      sameOption (mask #[0xA0, 0xFF]) (mask #[0xA7]) = true ∧
      sameOption (mask #[]) (mask #[]) = false ∧ ¬Holding (fun run => run.covered = true) (mask #[]) := by
  intro mask
  have hholding : ∀ {P : BitString → Prop} octets, Holding P (mask octets) ↔ P ⟨octets, 5⟩ := by
    intro P octets
    simp [mask, holding_some, children, Holding.absent]
  have hcountable : ∀ octets, Holding BitString.Countable (mask octets) := fun octets =>
    (hholding octets).mpr (show (5 : UInt64).toNat < 2 ^ 64 - 7 by decide)
  have hinside : sameOptionBy Octets.inside (mask #[0xA7]) (mask #[0xA0, 0xFF]) = some true := by decide +kernel
  obtain ⟨-, hpositive, hright, hcomm, -⟩ := sameOption_structural (mask #[0xA7]) (mask #[0xA0, 0xFF])
  obtain ⟨-, -, -, -, -, hself, -⟩ := sameOption_structural (mask #[]) (mask #[])
  have hmatched := hpositive.mp hinside
  have hsame := (hright (.inl (hcountable #[0xA7]))).2.mpr hmatched
  have hnone : ¬Holding (fun run => run.covered = true) (mask #[]) := fun h => absurd ((hholding #[]).mp h) (by decide)
  exact ⟨hcountable _, hinside, hmatched, hcomm ▸ hsame,
    Bool.eq_false_iff.mpr fun h => hnone ((hself (hcountable #[])).mp h), hnone⟩

/-- A bit string of the greatest length without an octet is the same as itself, although nothing holds it, and to tell so octets are
looked at that are not there. -/
theorem not_sameOption_structural_greatest :
    let a : Option Value := some (.bits ⟨#[], 18446744073709551615⟩)
    sameOption a a = true ∧ ¬Matched BitString.Alike a a ∧ sameOptionBy Octets.inside a a = none := by
  intro a
  let run : BitString := ⟨#[], 18446744073709551615⟩
  have hnot : ¬run.Countable := by
    unfold BitString.Countable
    decide
  refine ⟨?_, fun h => ?_, run.sameBy_of_not_countable hnot⟩
  · exact (run.same_eq_true_iff run).mpr ⟨rfl, by decide, by decide, rfl⟩
  · obtain ⟨hself, -⟩ := holding_some.mp ((matched_self_iff a).mp h)
    exact absurd (hself run rfl).left (by decide)

end Value

end UnalignedPer
