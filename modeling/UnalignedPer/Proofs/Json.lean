import Mathlib.Order.Lattice
import UnalignedPer.Json

/-!
# Members and numbers of a document

An object that is put together from members with keys of their own holds each of them under its key, whatever order they were
given in. A signed 64-bit number is read back from the whole number it is written as.
-/

namespace UnalignedPer

/-- A signed 64-bit number is read back. -/
@[simp] theorem Decimal.toInt64?_ofInt (value : Int64) : (Decimal.ofInt value.toInt).toInt64? = some value := by
  have hlow : Int64.minValue.toInt ≤ value.toInt := Int64.le_iff_toInt_le.mp (Int64.minValue_le value)
  have hhigh : value.toInt ≤ Int64.maxValue.toInt := Int64.le_iff_toInt_le.mp (Int64.le_maxValue value)
  have hone : value.toInt * Decimal.tenPower 0 = value.toInt := Int.mul_one _
  unfold toInt64? ofInt
  by_cases hzero : value.toInt = 0
  · have hvalue : value = 0 := Int64.toInt_inj.mp hzero
    rw [if_pos hzero, hvalue]
  · rw [if_neg hzero, if_pos (Int.le_refl 0), if_neg (show ¬(0 : Int) > 19 by decide)]
    show (if Int64.minValue.toInt ≤ value.toInt * tenPower 0 ∧ value.toInt * tenPower 0 ≤ Int64.maxValue.toInt then
      some (Int64.ofInt (value.toInt * tenPower 0)) else none) = some value
    rw [hone, if_pos ⟨hlow, hhigh⟩, Int64.ofInt_toInt]

namespace Json

@[simp] theorem int64?_int (value : Int64) : (Json.int value.toInt).int64? = some value :=
  Decimal.toInt64?_ofInt value

/-! ## Members -/

theorem member?_cons (sought key : String) (value : Json) (rest : List (String × Json)) :
    member? sought ((key, value) :: rest) = if sought = key then some value else member? sought rest := by
  rw [member?, List.lookup_cons]
  by_cases h : sought = key
  · rw [if_pos h, beq_iff_eq.mpr h]
  · rw [if_neg h, beq_eq_false_iff_ne.mpr h]
    rfl

/-- Adding a member changes what is found under its key only. -/
theorem member?_insertMember (key : String) (value : Json) (members : List (String × Json)) (sought : String) :
    member? sought (insertMember key value members) = if sought = key then some value else member? sought members := by
  induction members with
  | nil => rw [insertMember, member?_cons]
  | cons first rest ih =>
    obtain ⟨k, v⟩ := first
    rw [insertMember]
    split
    · rw [member?_cons]
    · split
      · rename_i hkey
        rw [member?_cons, member?_cons, ← hkey]
        split <;> rfl
      · rename_i hkey
        rw [member?_cons, member?_cons, ih]
        by_cases h : sought = k
        · rw [if_pos h, if_pos h, if_neg (h ▸ Ne.symm hkey)]
        · rw [if_neg h, if_neg h]

/-- A member that is found was there or was added. -/
theorem mem_insertMember {key : String} {value : Json} {members : List (String × Json)} {member : String × Json}
    (h : member ∈ insertMember key value members) : member = (key, value) ∨ member ∈ members := by
  induction members with
  | nil => exact .inl (List.mem_singleton.mp h)
  | cons first rest ih =>
    obtain ⟨k, v⟩ := first
    rw [insertMember] at h
    split at h
    · exact List.mem_cons.mp h
    · split at h
      · exact (List.mem_cons.mp h).imp_right (List.mem_cons_of_mem _)
      · rcases List.mem_cons.mp h with rfl | h
        · exact .inr (List.mem_cons_self ..)
        · exact (ih h).imp_right (List.mem_cons_of_mem _)

/-- The members of the object with some members. -/
def collect (members : List (String × Json)) : List (String × Json) :=
  members.foldl (fun sofar (key, value) => insertMember key value sofar) []

theorem ofMembers_eq (members : List (String × Json)) : ofMembers members = .obj (collect members) :=
  rfl

/-- What is under a key is the member of that key, or what was there before. -/
theorem member?_foldl {members : List (String × Json)} (h : (members.map (·.1)).Nodup) (sofar : List (String × Json))
    (sought : String) :
    member? sought (members.foldl (fun sofar (key, value) => insertMember key value sofar) sofar) =
      (member? sought members).or (member? sought sofar) := by
  induction members generalizing sofar with
  | nil => rfl
  | cons first rest ih =>
    obtain ⟨key, value⟩ := first
    rw [List.map_cons, List.nodup_cons] at h
    rw [List.foldl_cons, ih h.2, member?_insertMember, member?_cons]
    by_cases hk : sought = key
    · have hnone : member? sought rest = none := by
        refine List.lookup_eq_none_iff.mpr fun member hm => ?_
        rw [hk, bne_iff_ne]
        exact fun he => h.1 (List.mem_map.mpr ⟨member, hm, he.symm⟩)
      rw [if_pos hk, if_pos hk, hnone]
      rfl
    · rw [if_neg hk, if_neg hk]

/-- Members with keys of their own are found under their keys. -/
theorem member?_collect {members : List (String × Json)} (h : (members.map (·.1)).Nodup) (sought : String) :
    member? sought (collect members) = member? sought members := by
  rw [collect, member?_foldl h]
  exact Option.or_none

/-- An object has no members but those it was put together from. -/
theorem mem_collect {members : List (String × Json)} {member : String × Json} (h : member ∈ collect members) :
    member ∈ members := by
  have hfold : ∀ (members sofar : List (String × Json)),
      member ∈ members.foldl (fun sofar (key, value) => insertMember key value sofar) sofar →
        member ∈ members ∨ member ∈ sofar := by
    intro members
    induction members with
    | nil => exact fun sofar hm => .inr hm
    | cons first rest ih =>
      intro sofar hm
      rw [List.foldl_cons] at hm
      rcases ih _ hm with hm | hm
      · exact .inl (List.mem_cons_of_mem _ hm)
      · rcases mem_insertMember hm with rfl | hm
        · exact .inl (List.mem_cons_self ..)
        · exact .inr hm
  exact (hfold members [] h).resolve_right List.not_mem_nil

end Json

end UnalignedPer
