import Mathlib.Data.List.Forall2
import UnalignedPer.Proofs.Octets.Bits
import UnalignedPer.Value

/-!
# Values that match

Two values match (`Value.Matched`) when they are of the same kind, hold the same and have children that match one by one. What it is
for bit strings to be the same is left open: the comparison of values matches them with the comparison of bit strings
(`Value.sameOption_iff`), and a statement about bit strings carries over to values that hold them. So the comparison is symmetric and
transitive because that of bit strings is, and reflexive where that is (`Value.matched_self_iff`).
-/

namespace UnalignedPer

/-! ## Lists that are related one by one -/

section

variable {α : Type} {R S : α → α → Prop} {as : List α}

/-- Relations that say the same of the elements of a list say the same of the list. -/
theorem related_congr (h : ∀ a ∈ as, ∀ b, R a b ↔ S a b) (bs : List α) : List.Forall₂ R as bs ↔ List.Forall₂ S as bs := by
  constructor
  · exact fun hr => ((List.forall₂_and_left _ _).mpr ⟨h, hr⟩).imp fun a b hab => (hab.1 b).mp hab.2
  · exact fun hs => ((List.forall₂_and_left _ _).mpr ⟨h, hs⟩).imp fun a b hab => (hab.1 b).mpr hab.2

/-- A relation that chains from the elements of a list chains from the list. -/
theorem related_trans (h : ∀ a ∈ as, ∀ b c, R a b → R b c → R a c) {bs cs : List α} (hr : List.Forall₂ R as bs)
    (hs : List.Forall₂ R bs cs) : List.Forall₂ R as cs := by
  induction hr generalizing cs with
  | nil =>
    cases hs
    exact .nil
  | cons hab _ ih =>
    cases hs with
    | cons hbc hs =>
      exact .cons (h _ (List.mem_cons_self ..) _ _ hab hbc) (ih (fun a hm => h a (List.mem_cons_of_mem _ hm)) hs)

end

namespace Value

/-- The values in a value. -/
def children : Value → List (Option Value)
  | sequence fields => fields
  | sequenceOf elements => elements
  | choice _ payload => [payload]
  | _ => []

/-- A statement of every place, from the same statement of the places in it. -/
@[elab_as_elim]
theorem place_induction {P : Option Value → Prop} (absent : P none)
    (present : ∀ value : Value, (∀ child ∈ value.children, P child) → P (some value)) : ∀ entry, P entry
  | none => absent
  | some value => present value fun child _ => place_induction absent present child
termination_by entry => sizeOf entry
decreasing_by
  rename_i h
  cases value with
  | sequence fields =>
    have hs := List.sizeOf_lt_of_mem h
    simp only [children, Option.some.sizeOf_spec, sequence.sizeOf_spec] at hs ⊢
    omega
  | sequenceOf elements =>
    have hs := List.sizeOf_lt_of_mem h
    simp only [children, Option.some.sizeOf_spec, sequenceOf.sizeOf_spec] at hs ⊢
    omega
  | choice index payload =>
    rw [children, List.mem_singleton] at h
    subst h
    simp only [Option.some.sizeOf_spec, choice.sizeOf_spec]
    omega
  | _ => nomatch h

/-- Two values are of the same kind and hold the same, other than their children. Bit strings are related. -/
def Like (R : BitString → BitString → Prop) : Value → Value → Prop
  | null, null => True
  | boolean a, boolean b => a = b
  | integer a, integer b => a = b
  | enumerated a, enumerated b => a = b
  | octets a, octets b => a = b
  | bits a, bits b => R a b
  | text a, text b => a = b
  | sequence _, sequence _ => True
  | sequenceOf _, sequenceOf _ => True
  | choice i _, choice j _ => i = j
  | _, _ => False

/-- Two places are both empty, or hold values that are alike and of which the children match one by one. -/
inductive Matched (R : BitString → BitString → Prop) : Option Value → Option Value → Prop where
  /-- Nothing matches nothing. -/
  | absent : Matched R none none
  /-- Values match as a whole. -/
  | present {a b : Value} (like : a.Like R b) (children : List.Forall₂ (Matched R) a.children b.children) :
    Matched R (some a) (some b)

/-- Every bit string in a place is of a kind. -/
inductive Holding (P : BitString → Prop) : Option Value → Prop where
  /-- There is none in an empty place. -/
  | absent : Holding P none
  /-- The value may be one, and others may be in its children. -/
  | present {value : Value} (self : ∀ run, value = bits run → P run) (children : ∀ child ∈ value.children, Holding P child) :
    Holding P (some value)

section

variable {R S : BitString → BitString → Prop} {P : BitString → Prop}

/-- Two values match if they are alike and their children match one by one. -/
theorem matched_some {a b : Value} :
    Matched R (some a) (some b) ↔ a.Like R b ∧ List.Forall₂ (Matched R) a.children b.children := by
  constructor
  · intro h
    cases h with
    | present like children => exact ⟨like, children⟩
  · exact fun h => .present h.1 h.2

/-- The bit strings of a value are of a kind if the value, where it is one, and those in its children are. -/
theorem holding_some {value : Value} :
    Holding P (some value) ↔ (∀ run, value = bits run → P run) ∧ ∀ child ∈ value.children, Holding P child := by
  constructor
  · intro h
    cases h with
    | present self children => exact ⟨self, children⟩
  · exact fun h => .present h.1 h.2

/-! ## What is said of bit strings carries over -/

/-- Alike is symmetric if the relation of bit strings is. -/
theorem Like.symm (hr : ∀ a b, R a b → R b a) {a b : Value} (h : a.Like R b) : b.Like R a := by
  cases a <;> cases b <;> first
    | exact hr _ _ h
    | exact Eq.symm h
    | exact h

/-- Matching is symmetric if the relation of bit strings is. -/
theorem Matched.symm (hr : ∀ a b, R a b → R b a) {a b : Option Value} (h : Matched R a b) : Matched R b a := by
  induction a using place_induction generalizing b with
  | absent =>
    cases h
    exact .absent
  | present a ih =>
    cases h with
    | present like children =>
      refine .present (like.symm hr) (List.Forall₂.flip ?_)
      exact ((List.forall₂_and_left _ _).mpr ⟨ih, children⟩).imp fun x y hxy => hxy.1 hxy.2

/-- Alike is transitive if the relation of bit strings is. -/
theorem Like.trans (hr : ∀ a b c, R a b → R b c → R a c) {a b c : Value} (h : a.Like R b) (h' : b.Like R c) :
    a.Like R c := by
  cases a <;> cases b <;> first
    | exact h.elim
    | cases c <;> first
      | exact hr _ _ _ h h'
      | exact Eq.trans h h'
      | exact h'

/-- Matching is transitive if the relation of bit strings is. -/
theorem Matched.trans (hr : ∀ a b c, R a b → R b c → R a c) {a b c : Option Value} (h : Matched R a b) (h' : Matched R b c) :
    Matched R a c := by
  induction a using place_induction generalizing b c with
  | absent =>
    cases h
    exact h'
  | present a ih =>
    cases h with
    | present like children =>
      cases h' with
      | present like' children' =>
        exact .present (like.trans hr like') (related_trans (R := Matched R) (fun x hm _ _ hxy hyz => ih x hm hxy hyz) children children')

/-- A value matches itself exactly when each of its bit strings is related to itself. -/
theorem matched_self_iff (a : Option Value) : Matched R a a ↔ Holding (fun run => R run run) a := by
  induction a using place_induction with
  | absent => exact iff_of_true .absent .absent
  | present a ih =>
    rw [matched_some, holding_some, List.forall₂_same]
    refine and_congr ?_ (forall₂_congr ih)
    cases a <;> simp [Like]

end

/-! ## The comparison of values -/

/-- Two lists of places are the same if they are as long and the same place by place. -/
theorem sameList_iff (as bs : List (Option Value)) :
    sameList as bs = true ↔ List.Forall₂ (fun a b => sameOption a b = true) as bs := by
  induction as generalizing bs with
  | nil => cases bs <;> simp [sameList]
  | cons a as ih => cases bs <;> simp [sameList, ih]

/-- Values are compared node by node. -/
theorem same_iff (a b : Value) :
    a.same b = true ↔
      a.Like (fun a b => a.same b = true) b ∧ List.Forall₂ (fun a b => sameOption a b = true) a.children b.children := by
  cases a <;> cases b <;> simp [same, Like, children, sameList_iff]

/-- The comparison matches values whose bit strings compare as the same. -/
theorem sameOption_iff (a b : Option Value) : sameOption a b = true ↔ Matched (fun a b => a.same b = true) a b := by
  induction a using place_induction generalizing b with
  | absent =>
    cases b with
    | none => exact iff_of_true rfl .absent
    | some b => exact iff_of_false Bool.false_ne_true nofun
  | present a ih =>
    cases b with
    | none => exact iff_of_false Bool.false_ne_true nofun
    | some b => rw [sameOption, same_iff, matched_some, related_congr ih]

end Value

/-! ## The comparison of bit strings -/

namespace BitString

/-- Two bit strings are the same if they have as many bits, the octets for these bits are there, and the bits are equal. -/
theorem same_eq_true_iff (a b : BitString) :
    a.same b = true ↔ a.length = b.length ∧ (octetCount a.length).toNat ≤ a.octets.size ∧
      (octetCount a.length).toNat ≤ b.octets.size ∧
      Octets.bitsFrom a.octets 0 a.length.toNat = Octets.bitsFrom b.octets 0 a.length.toNat := by
  simp only [same, Octets.agreeOn_eq, Bool.and_eq_true, beq_iff_eq, decide_eq_true_eq, and_assoc]

/-- The comparison of bit strings is symmetric. -/
theorem same_symm (a b : BitString) (h : a.same b = true) : b.same a = true := by
  rw [same_eq_true_iff] at h ⊢
  obtain ⟨hlength, ha, hb, hbits⟩ := h
  rw [← hlength]
  exact ⟨rfl, hb, ha, hbits.symm⟩

/-- The comparison of bit strings is transitive. -/
theorem same_trans (a b c : BitString) (h : a.same b = true) (h' : b.same c = true) : a.same c = true := by
  rw [same_eq_true_iff] at h h' ⊢
  obtain ⟨hlength, ha, -, hbits⟩ := h
  obtain ⟨hlength', -, hc, hbits'⟩ := h'
  rw [← hlength] at hlength' hc hbits'
  exact ⟨hlength', ha, hc, hbits.trans hbits'⟩

end BitString

namespace Value

/-- The comparison is symmetric. -/
theorem sameOption_comm (a b : Option Value) : sameOption a b = sameOption b a := by
  rw [Bool.eq_iff_iff, sameOption_iff, sameOption_iff]
  exact ⟨Matched.symm BitString.same_symm, Matched.symm BitString.same_symm⟩

/-- The comparison is transitive. -/
theorem sameOption_trans {a b c : Option Value} (h : sameOption a b = true) (h' : sameOption b c = true) :
    sameOption a c = true := by
  rw [sameOption_iff] at h h' ⊢
  exact h.trans BitString.same_trans h'

end Value

end UnalignedPer
