import UnalignedPer.Proofs.Bounds
import UnalignedPer.Proofs.LengthDeterminant
import UnalignedPer.SizedContent

/-!
# Content of a bounded size is read back

The units of a content are lists of bits, and the form of the content (`SizedContent.form`) is these lists behind their length
determinants. The functions that write and read chunks of units are parameters, so the statements assume of them what they
conclude of the whole content: a chunk is written as its units, and read back onto what was read before it.

Of a content that is read from any bits at all it is known that its size lies within the bounds, or the type is extensible,
and within the limit.
-/

namespace UnalignedPer

namespace SizedContent

open LengthDeterminant

/-! ## The forms -/

/-- The units of a content of free length behind its first determinant; each further fragment has one of its own. -/
def chunks (units : List (List Bool)) : List Bool :=
  (units.take (covered units.length)).flatten ++
    if _last : units.length < fragmentUnit then []
    else
      freeForm (units.length - covered units.length) ++ chunks (units.drop (covered units.length))
termination_by units.length
decreasing_by
  have := covered_bounds units.length _last
  rw [List.length_drop]
  omega

/-- A content of free length. -/
def fragments (units : List (List Bool)) : List Bool :=
  freeForm units.length ++ chunks units

/-- A content whose size lies within its bounds. -/
def rootForm (size : Bounds Nat) (units : List (List Bool)) : List Bool :=
  if size.upper = some 0 then []
  else if (fixedSize size).isSome then units.flatten
  else
    match boundedUpper size with
    | some upper => Bits.offset (size.lower.getD 0 : Nat) upper units.length ++ units.flatten
    | none => fragments units

/-- A content. The size of an extensible one may lie outside its bounds. -/
def form (size : Bounds Nat) (extensible : Bool) (units : List (List Bool)) : List Bool :=
  if inRoot size units.length then (if extensible then [false] else []) ++ rootForm size units
  else true :: fragments units

theorem inRoot_free (count : Nat) : inRoot .free count = true := by
  simp [inRoot, Bounds.free]

/-- A size within the bounds lies above the lower one, and below the upper one if there is one. -/
theorem inRoot_iff (size : Bounds Nat) (count : Nat) :
    inRoot size count = true ↔ size.lower.getD 0 ≤ count ∧ ∀ upper, size.upper = some upper → count ≤ upper := by
  simp only [inRoot, Bool.and_eq_true, decide_eq_true_eq, Option.all_eq_true]

theorem boundedUpper_free : boundedUpper .free = none := rfl

/-- A content without bounds is fragmented, whatever its size. -/
theorem form_free (units : List (List Bool)) : form .free false units = fragments units := by
  rw [form, if_pos (inRoot_free _)]
  rfl

/-- A fixed size is the one size within the bounds. -/
theorem fixedSize_eq_some {size : Bounds Nat} {count : Nat} (h : fixedSize size = some count) :
    size.lower = some count ∧ size.upper = some count := by
  obtain ⟨lower, upper⟩ := size
  unfold fixedSize at h
  split at h
  · rename_i lower upper hl hu
    split at h
    · rename_i he
      cases h
      exact ⟨hl.trans (congrArg some he), (boundedUpper_eq_some hu).1⟩
    · cases h
  · cases h

/-- Units of at least `unitBits` bits take that many bits each. -/
theorem le_length_flatten (units : List (List Bool)) {unitBits : Nat} (h : ∀ u ∈ units, unitBits ≤ u.length) :
    units.length * unitBits ≤ units.flatten.length := by
  induction units with
  | nil => simp
  | cons u rest ih =>
    have hu := h u (List.mem_cons_self ..)
    have hr := ih fun v hv => h v (List.mem_cons_of_mem _ hv)
    rw [List.length_cons, List.flatten_cons, List.length_append, Nat.succ_mul]
    omega

/-- The units stand in a content of free length. -/
theorem length_flatten_le_chunks (units : List (List Bool)) : units.flatten.length ≤ (chunks units).length := by
  induction units using chunks.induct with
  | case1 units ih =>
    rw [chunks]
    by_cases hlast : units.length < fragmentUnit
    · refine Nat.le_of_eq ?_
      rw [dif_pos hlast, covered_of_lt hlast, List.take_length, List.append_nil]
    · have hrest := ih hlast
      have hsplit : units.flatten.length =
          (units.take (covered units.length)).flatten.length + (units.drop (covered units.length)).flatten.length := by
        rw [← List.length_append, ← List.flatten_append, List.take_append_drop]
      rw [dif_neg hlast, List.length_append, List.length_append]
      omega

theorem length_flatten_le_fragments (units : List (List Bool)) : units.flatten.length ≤ (fragments units).length := by
  have := length_flatten_le_chunks units
  rw [fragments, List.length_append]
  omega

/-- The units stand in a content, whichever form it has. -/
theorem length_flatten_le_form (size : Bounds Nat) (extensible : Bool) (units : List (List Bool)) :
    units.flatten.length ≤ (form size extensible units).length := by
  have hfragments := length_flatten_le_fragments units
  unfold form
  by_cases hs : inRoot size units.length = true
  · have hroot : units.flatten.length ≤ (rootForm size units).length := by
      unfold rootForm
      by_cases h0 : size.upper = some 0
      · have hnil := ((inRoot_iff size units.length).mp hs).2 0 h0
        rw [List.eq_nil_of_length_eq_zero (Nat.le_zero.mp hnil)]
        exact Nat.zero_le _
      rw [if_neg h0]
      by_cases hf : (fixedSize size).isSome = true
      · refine Nat.le_of_eq ?_
        rw [if_pos hf]
      rw [if_neg hf]
      cases boundedUpper size with
      | none => exact hfragments
      | some upper =>
        simp only [List.length_append]
        omega
    rw [if_pos hs, List.length_append]
    omega
  · rw [if_neg hs, List.length_cons]
    omega

section Pack

variable {τ : Type} [BitSink τ] [LawfulBitSink τ] {emit : Nat → Nat → Packer τ Unit} {units : List (List Bool)}
  {good : Nat → Prop} {s : τ}

/-- From states that differ from `s` in what was written, a chunk is written as its units if they are all good. -/
def Emits (s : τ) (emit : Nat → Nat → Packer τ Unit) (units : List (List Bool)) (good : Nat → Prop) : Prop :=
  ∀ s' bits offset count, Packer.Wrote s bits s' → offset + count ≤ units.length →
    Packer.WritesIf s' (∀ i, offset ≤ i → i < offset + count → good i) (emit offset count)
      ((units.drop offset).take count).flatten ()

/-- All units at once. -/
theorem Emits.all (h : Emits s emit units good) {s' : τ} {bits : List Bool} (hw : Packer.Wrote s bits s') :
    Packer.WritesIf s' (∀ i, i < units.length → good i) (emit 0 units.length) units.flatten () := by
  have ha := h s' bits 0 units.length hw (by omega)
  rw [List.drop_zero, List.take_length] at ha
  exact ha.congr ⟨fun hg i hi => hg i (Nat.zero_le i) (by omega), fun hg i _ hi => hg i (by omega)⟩

/-- The units from an offset on are written in fragments if they are all good. -/
theorem writesIf_packFree (h : Emits s emit units good) (rest : Nat) :
    ∀ s' bits offset, Packer.Wrote s bits s' → offset + rest = units.length →
      Packer.WritesIf s' (∀ i, offset ≤ i → i < units.length → good i) (packFree emit offset rest)
        (fragments (units.drop offset)) () := by
  -- Each step leaves a shorter rest.
  induction rest using Nat.strongRecOn with
  | ind rest ih =>
    intro s' bits offset hw hr
    have hlen : (units.drop offset).length = rest := by rw [List.length_drop]; omega
    rw [packFree, fragments, chunks]
    simp only [hlen]
    refine (writes_packFree s' rest).bind_writesIf fun s1 hw1 => ?_
    have hcov := covered_le rest
    have hchunk := h s1 _ offset (covered rest) (hw.trans hw1) (by omega)
    by_cases hlast : rest < fragmentUnit
    · rw [dif_pos hlast, dif_pos hlast]
      rw [covered_of_lt hlast] at hchunk ⊢
      refine (hchunk.bind fun s2 _ _ => (Packer.writes_pure s2 ()).writesIf trivial).congr ?_
      rw [hr, and_true]
    · rw [dif_neg hlast, dif_neg hlast]
      have hpos := (covered_bounds rest hlast).1
      have hsame : units.length - (offset + covered rest) = rest - covered rest := by omega
      have hnext : ∀ s2, Packer.Wrote s1 ((units.drop offset).take (covered rest)).flatten s2 →
          Packer.WritesIf s2 (∀ i, offset + covered rest ≤ i → i < units.length → good i)
            (packFree emit (offset + covered rest) (rest - covered rest))
            (freeForm (rest - covered rest) ++ chunks ((units.drop offset).drop (covered rest))) () := by
        intro s2 hw2
        have hrest := ih (rest - covered rest) (by omega) s2 _ (offset + covered rest) ((hw.trans hw1).trans hw2) (by omega)
        rw [fragments, List.length_drop, hsame] at hrest
        rw [List.drop_drop]
        exact hrest
      refine (hchunk.bind fun s2 _ hw2 => hnext s2 hw2).congr ⟨fun hg i hlo hi => ?_, fun hg => ?_⟩
      · by_cases hmid : i < offset + covered rest
        · exact hg.1 i hlo hmid
        · exact hg.2 i (by omega) hi
      · exact ⟨fun i hlo hi => hg i hlo (by omega), fun i hlo hi => hg i (by omega) hi⟩

/-- A content of free length is written if its units are good. -/
theorem writesIf_packFree_all (h : Emits s emit units good) {s' : τ} {bits : List Bool} (hw : Packer.Wrote s bits s') :
    Packer.WritesIf s' (∀ i, i < units.length → good i) (packFree emit 0 units.length) (fragments units) () := by
  have ha := writesIf_packFree h units.length s' bits 0 hw (by omega)
  rw [List.drop_zero] at ha
  exact ha.congr ⟨fun hg i hi => hg i (Nat.zero_le i) hi, fun hg i _ hi => hg i hi⟩

/-- A content within its bounds is written if its units are good. -/
theorem writesIf_packRoot (h : Emits s emit units good) {size : Bounds Nat} (hs : inRoot size units.length = true)
    {s' : τ} {bits : List Bool} (hw : Packer.Wrote s bits s') :
    Packer.WritesIf s' (∀ i, i < units.length → good i) (packRoot size units.length emit) (rootForm size units) () := by
  obtain ⟨hlo, hhi⟩ := (inRoot_iff size units.length).mp hs
  unfold packRoot rootForm
  by_cases h0 : size.upper = some 0
  · rw [if_pos h0, if_pos h0]
    have hn := hhi 0 h0
    exact (Packer.writes_pure s' ()).writesIf fun i hi => by omega
  rw [if_neg h0, if_neg h0]
  by_cases hf : (fixedSize size).isSome = true
  · rw [if_pos hf, if_pos hf]
    exact h.all hw
  rw [if_neg hf, if_neg hf]
  cases hb : boundedUpper size with
  | some upper =>
    have hu := (boundedUpper_eq_some hb).1
    rw [if_pos Option.isSome_some]
    exact (writes_pack s' hb hlo (hhi upper hu)).bind_writesIf fun s1 hw1 => h.all (hw.trans hw1)
  | none =>
    rw [if_neg (by simp)]
    exact writesIf_packFree_all h hw

/-- A content is written if its units are good and its size lies within the bounds or the type is extensible. -/
theorem writesIf_pack (h : Emits s emit units good) (size : Bounds Nat) (extensible : Bool) :
    Packer.WritesIf s ((extensible = true ∨ inRoot size units.length = true) ∧ ∀ i, i < units.length → good i)
      (pack size extensible units.length emit) (form size extensible units) () := by
  unfold pack form
  by_cases hs : inRoot size units.length = true
  · rw [if_pos hs, if_pos hs]
    refine Packer.WritesIf.congr ?_ (and_iff_right (Or.inr hs)).symm
    cases extensible with
    | false => exact writesIf_packRoot h hs (Packer.Wrote.refl s)
    | true => exact (Packer.writes_bit s false).bind_writesIf fun s1 hw => writesIf_packRoot h hs hw
  · rw [if_neg hs, if_neg hs]
    cases extensible with
    | false => exact (Packer.fails_throw s _).writesIf (fun hn => hs (hn.1.resolve_left Bool.false_ne_true)) _ _
    | true =>
      refine Packer.WritesIf.congr ?_ (and_iff_right (Or.inl rfl)).symm
      exact (Packer.writes_bit s true).bind_writesIf fun s1 hw => writesIf_packFree_all h hw

end Pack

section Unpack

variable {σ α β : Type} [BitSource σ] [LawfulBitSource σ] {consume : α → Nat → Unpacker σ α} {unitBits : Nat}
  {limit : Option Nat} {s : σ}

/-- A chunk within the limit whose bits are ahead passes the checks. -/
theorem takes_checkChunk_bind {m : Unpacker σ β} {bits : List Bool} {x : β} {total count : Nat}
    (hl : ∀ l, limit = some l → total ≤ l) (hb : count * unitBits ≤ bits.length) (h : Unpacker.Takes s m bits x) :
    Unpacker.Takes s (checkChunk unitBits limit total count >>= fun _ => m) bits x := by
  intro hp
  have hlim : ¬limit.any (· < total) = true := by
    rw [Option.any_eq_true]
    rintro ⟨l, hsome, hlt⟩
    have := hl l hsome
    have := of_decide_eq_true hlt
    omega
  have hahead : ¬(unitBits ≠ 0 ∧ count * unitBits % UInt64.size > BitSource.remaining s) := by
    rw [LawfulBitSource.remaining_eq]
    have hmod : count * unitBits % UInt64.size ≤ count * unitBits := Nat.mod_le _ _
    have := hp.length_le
    omega
  have hc : checkChunk unitBits limit total count s = .ok () s := by
    unfold checkChunk
    rw [if_neg hlim]
    exact congrFun (if_neg hahead) s
  obtain ⟨s1, h1, hm⟩ := h hp
  exact ⟨s1, by simp only [run_bind, hc]; exact h1, hm⟩

/-- The last chunk is read. -/
theorem takes_unpackFrom_final (bounds : Bounds Nat) (fuel : Nat) {before count : Nat} {sofar after : α} {bits : List Bool}
    (hl : ∀ l, limit = some l → before + count ≤ l) (hb : count * unitBits ≤ bits.length)
    (h : Unpacker.Takes s (consume sofar count) bits after) :
    Unpacker.Takes s (unpackFrom bounds unitBits limit consume before sofar ⟨count, false⟩ (fuel + 1)) bits
      (before + count, after) := by
  rw [unpackFrom]
  refine takes_checkChunk_bind hl hb ?_
  rw [← List.append_nil bits]
  refine h.bind fun s1 _ => ?_
  rw [if_neg Bool.false_ne_true]
  exact Unpacker.takes_pure s1 _

/-- A fragment is read, and then what stands behind it. -/
theorem takes_unpackFrom_fragment {before count fuel : Nat} {sofar after : α} {bits more : List Bool} {result : Nat × α}
    (hl : ∀ l, limit = some l → before + count ≤ l) (hb : count * unitBits ≤ bits.length)
    (h : Unpacker.Takes s (consume sofar count) bits after)
    (hmore : ∀ s1, LawfulBitSource.Moved s bits.length s1 →
      Unpacker.Takes s1 (unpackFree >>= fun chunk => unpackFrom .free unitBits limit consume (before + count) after chunk fuel)
        more result) :
    Unpacker.Takes s (unpackFrom .free unitBits limit consume before sofar ⟨count, true⟩ (fuel + 1)) (bits ++ more)
      result := by
  rw [unpackFrom]
  refine takes_checkChunk_bind hl (Nat.le_trans hb (by rw [List.length_append]; omega)) ?_
  refine h.bind fun s1 hm => ?_
  rw [if_pos rfl]
  exact hmore s1 hm

/-- A chunk that passes the checks is within the limit. -/
theorem gives_checkChunk (s : σ) (unitBits : Nat) (limit : Option Nat) (total count : Nat) :
    Unpacker.Gives s (checkChunk unitBits limit total count) fun _ => ∀ l, limit = some l → total ≤ l := by
  unfold checkChunk
  by_cases hlim : limit.any (· < total) = true
  · rw [if_pos hlim]
    exact Unpacker.gives_throw s _ _
  · rw [if_neg hlim]
    refine (Unpacker.gives_remaining s).bind fun ahead s1 _ _ _ => ?_
    refine Unpacker.gives_ite (fun _ => Unpacker.gives_throw s1 _ _) fun _ => Unpacker.gives_pure s1 ?_
    intro l hl
    rw [Option.any_eq_true] at hlim
    exact Nat.not_lt.mp fun hn => hlim ⟨l, hl, decide_eq_true hn⟩

/-- From states ahead of `s`, a chunk of the units is read onto what was read before it. -/
def Consumes (s : σ) (consume : α → Nat → Unpacker σ α) (units : List (List Bool)) (sofar : Nat → α) : Prop :=
  ∀ s' n offset count, LawfulBitSource.Moved s n s' → offset + count ≤ units.length →
    Unpacker.Takes s' (consume (sofar offset) count) ((units.drop offset).take count).flatten (sofar (offset + count))

/-- What is known of the units before they are read: their number is within the limit, and none is too short. -/
structure Readable (unitBits : Nat) (limit : Option Nat) (units : List (List Bool)) : Prop where
  /-- The number of units is within the limit. -/
  within : ∀ l, limit = some l → units.length ≤ l
  /-- Every unit takes the bits that a unit takes. -/
  wide : ∀ u ∈ units, unitBits ≤ u.length

/-- A chunk of the units takes the bits of its units. -/
theorem Readable.chunk_le {units : List (List Bool)} (h : Readable unitBits limit units) (offset count : Nat)
    (hc : offset + count ≤ units.length) : count * unitBits ≤ ((units.drop offset).take count).flatten.length := by
  have hlen : ((units.drop offset).take count).length = count := by
    rw [List.length_take, List.length_drop]
    omega
  have hw := le_length_flatten ((units.drop offset).take count)
    fun u hu => h.wide u (List.mem_of_mem_drop (List.mem_of_mem_take hu))
  rw [hlen] at hw
  exact hw

variable {units : List (List Bool)} {sofar : Nat → α}

/-- The units from an offset on are read from their chunks, if there is fuel for each chunk. -/
theorem takes_unpackFrom (h : Consumes s consume units sofar) (hr : Readable unitBits limit units) (fuel : Nat) :
    ∀ s' n offset, LawfulBitSource.Moved s n s' → offset ≤ units.length → (chunks (units.drop offset)).length < fuel →
      Unpacker.Takes s'
        (unpackFrom .free unitBits limit consume offset (sofar offset) (chunkOf (units.length - offset)) fuel)
        (chunks (units.drop offset)) (units.length, sofar units.length) := by
  induction fuel with
  | zero => intro s' n offset _ _ hf; exact absurd hf (Nat.not_lt_zero _)
  | succ fuel ih =>
    intro s' n offset hm ho hf
    have hcov := covered_le (units.length - offset)
    have hwithin : ∀ l, limit = some l → offset + covered (units.length - offset) ≤ l := by
      intro l hl
      have := hr.within l hl
      omega
    have hchunk := h s' n offset (covered (units.length - offset)) hm (by omega)
    have hwide := hr.chunk_le offset (covered (units.length - offset)) (by omega)
    rw [chunks, List.length_drop] at hf ⊢
    by_cases hlast : units.length - offset < fragmentUnit
    · rw [dif_pos hlast, List.append_nil, chunkOf, decide_eq_false (by omega)]
      have hend : offset + covered (units.length - offset) = units.length := by
        rw [covered_of_lt hlast]
        omega
      have hfinal := takes_unpackFrom_final .free fuel hwithin hwide hchunk
      rw [hend] at hfinal
      exact hfinal
    · rw [dif_neg hlast] at hf ⊢
      rw [chunkOf, decide_eq_true (by omega)]
      have hpos := covered_bounds (units.length - offset) hlast
      refine takes_unpackFrom_fragment hwithin hwide hchunk fun s1 hm1 => ?_
      refine (takes_unpackFree s1 _).bind fun s2 hm2 => ?_
      have hm3 := LawfulBitSource.moved_trans (LawfulBitSource.moved_trans hm hm1) hm2
      have hnext := ih s2 _ (offset + covered (units.length - offset)) hm3 (by omega)
        (by
          rw [List.length_append, List.length_append] at hf
          have := length_freeForm (units.length - offset - covered (units.length - offset))
          rw [← List.drop_drop]
          omega)
      rw [← List.drop_drop, show units.length - (offset + covered (units.length - offset)) =
        units.length - offset - covered (units.length - offset) by omega] at hnext
      exact hnext

/-- A single chunk is read without looking for another one. -/
theorem takes_unpackFrom_last (h : Consumes s consume units sofar) (hr : Readable unitBits limit units) (bounds : Bounds Nat)
    (fuel : Nat) {s' : σ} {n : Nat} (hm : LawfulBitSource.Moved s n s') :
    Unpacker.Takes s' (unpackFrom bounds unitBits limit consume 0 (sofar 0) ⟨units.length, false⟩ (fuel + 1))
      units.flatten (units.length, sofar units.length) := by
  have hchunk := h s' n 0 units.length hm (by omega)
  have hwide := hr.chunk_le 0 units.length (by omega)
  rw [List.drop_zero, List.take_length] at hchunk hwide
  have hfinal := takes_unpackFrom_final bounds fuel (by rw [Nat.zero_add]; exact hr.within) hwide hchunk
  simp only [Nat.zero_add] at hfinal
  exact hfinal

/-- What follows the number of bits ahead, where that covers the bits read. -/
theorem takes_remaining_bind {f : Nat → Unpacker σ β} {bits : List Bool} {x : β}
    (h : ∀ ahead, bits.length ≤ ahead → Unpacker.Takes s (f ahead) bits x) :
    Unpacker.Takes s (Unpacker.remaining >>= f) bits x := by
  intro hp
  rw [Unpacker.remaining_bind]
  refine h _ ?_ hp
  rw [LawfulBitSource.remaining_eq]
  exact hp.length_le

/-- A content of free length is read from its fragments. -/
theorem takes_unpackCounted_free (h : Consumes s consume units sofar) (hr : Readable unitBits limit units)
    (size : Bounds Nat) (hb : boundedUpper size = none) (hs : inRoot size units.length = true) {s' : σ} {n : Nat}
    (hm : LawfulBitSource.Moved s n s') :
    Unpacker.Takes s' (unpackCounted size unitBits limit (sofar 0) consume) (fragments units) (sofar units.length) := by
  refine takes_remaining_bind fun ahead ha => ?_
  rw [fragments, List.length_append] at ha
  rw [hb, if_neg (by simp)]
  refine (takes_unpackFree s' units.length).bind fun s1 hm1 => ?_
  have hd := length_freeForm units.length
  have hall := takes_unpackFrom h hr (ahead + 1) s1 _ 0 (LawfulBitSource.moved_trans hm hm1) (Nat.zero_le _)
    (by rw [List.drop_zero]; omega)
  rw [List.drop_zero, Nat.sub_zero] at hall
  rw [← List.append_nil (chunks units)]
  refine hall.bind fun s2 _ => ?_
  simp only [if_pos hs]
  exact Unpacker.takes_pure s2 _

/-- A content within its bounds is read back. -/
theorem takes_unpackRoot (h : Consumes s consume units sofar) (hr : Readable unitBits limit units) {size : Bounds Nat}
    (hs : inRoot size units.length = true) {s' : σ} {n : Nat} (hm : LawfulBitSource.Moved s n s') :
    Unpacker.Takes s' (unpackRoot size unitBits limit (sofar 0) consume) (rootForm size units) (sofar units.length) := by
  obtain ⟨hlo, hhi⟩ := (inRoot_iff size units.length).mp hs
  unfold unpackRoot rootForm
  by_cases h0 : size.upper = some 0
  · rw [if_pos h0, if_pos h0, Nat.le_zero.mp (hhi 0 h0)]
    exact Unpacker.takes_pure s' _
  rw [if_neg h0, if_neg h0]
  cases hf : fixedSize size with
  | some count =>
    obtain ⟨hl, hu⟩ := fixedSize_eq_some hf
    rw [hl, Option.getD_some] at hlo
    obtain rfl : count = units.length := Nat.le_antisymm hlo (hhi count hu)
    have hchunk := h s' n 0 units.length hm (by omega)
    have hwide := hr.chunk_le 0 units.length (by omega)
    rw [List.drop_zero, List.take_length] at hchunk hwide
    rw [Nat.zero_add] at hchunk
    rw [if_pos Option.isSome_some]
    exact takes_checkChunk_bind hr.within hwide hchunk
  | none =>
    rw [if_neg (by simp)]
    cases hb : boundedUpper size with
    | none => exact takes_unpackCounted_free h hr size hb hs hm
    | some upper =>
      have hu := (boundedUpper_eq_some hb).1
      refine takes_remaining_bind fun ahead _ => ?_
      rw [hb, if_pos Option.isSome_some]
      refine (takes_unpack s' hb hlo (hhi upper hu)).bind fun s1 hm1 => ?_
      rw [← List.append_nil units.flatten]
      refine (takes_unpackFrom_last h hr size ahead (LawfulBitSource.moved_trans hm hm1)).bind fun s2 _ => ?_
      simp only [if_pos hs]
      exact Unpacker.takes_pure s2 _

/-- A content is read back if its size lies within the bounds or the type is extensible. -/
theorem takes_unpack (h : Consumes s consume units sofar) (hr : Readable unitBits limit units) (size : Bounds Nat)
    {extensible : Bool} (hs : extensible = true ∨ inRoot size units.length = true) :
    Unpacker.Takes s (unpack size extensible unitBits limit (sofar 0) consume) (form size extensible units)
      (sofar units.length) := by
  unfold unpack form
  by_cases hroot : inRoot size units.length = true
  · rw [if_pos hroot]
    cases extensible with
    | false => exact takes_unpackRoot h hr hroot (LawfulBitSource.moved_refl s)
    | true =>
      rw [if_pos rfl, if_pos rfl]
      refine Unpacker.takes_bit_bind fun s1 hm => ?_
      rw [if_neg Bool.false_ne_true]
      exact takes_unpackRoot h hr hroot hm
  · obtain rfl : extensible = true := hs.resolve_right hroot
    rw [if_neg hroot, if_pos rfl]
    refine Unpacker.takes_bit_bind fun s1 hm => ?_
    rw [if_pos rfl]
    exact takes_unpackCounted_free h hr .free boundedUpper_free (inRoot_free _) hm

/-! ## What is known of a content that was read -/

/-- From states ahead of `s`, reading `count` units onto what was read before keeps an invariant, which speaks of the number of
units read so far. -/
def Keeps (s : σ) (consume : α → Nat → Unpacker σ α) (invariant : Nat → α → Prop) : Prop :=
  ∀ s' n total before count, LawfulBitSource.Moved s n s' → invariant total before →
    Unpacker.Gives s' (consume before count) (invariant (total + count))

variable {invariant : Nat → α → Prop}

theorem gives_unpackFrom (h : Keeps s consume invariant) (bounds : Bounds Nat) (unitBits : Nat) (limit : Option Nat)
    (fuel : Nat) :
    ∀ s' n total before chunk, LawfulBitSource.Moved s n s' → invariant total before →
      Unpacker.Gives s' (unpackFrom bounds unitBits limit consume total before chunk fuel)
        fun found => invariant found.1 found.2 ∧ ∀ l, limit = some l → found.1 ≤ l := by
  induction fuel with
  | zero => intro s' n total before chunk _ _; exact Unpacker.gives_throw s' _ _
  | succ fuel ih =>
    intro s' n total before chunk hm hi
    rw [unpackFrom]
    refine (gives_checkChunk s' _ _ _ _).bind fun _ s1 n1 hl hm1 => ?_
    have hm2 := LawfulBitSource.moved_trans hm hm1
    refine (h s1 _ total before chunk.units hm2 hi).bind fun after s2 n2 ha hm3 => ?_
    have hm4 := LawfulBitSource.moved_trans hm2 hm3
    refine Unpacker.gives_ite (fun _ => ?_) fun _ => Unpacker.gives_pure s2 ⟨ha, hl⟩
    refine (gives_unpack s2 bounds).bind fun next s3 n3 _ hm5 => ?_
    exact ih s3 _ _ after next (LawfulBitSource.moved_trans hm4 hm5) ha

theorem gives_unpackCounted (h : Keeps s consume invariant) (size : Bounds Nat) (unitBits : Nat) (limit : Option Nat)
    {start : α} (hi : invariant 0 start) {s' : σ} {n : Nat} (hm : LawfulBitSource.Moved s n s') :
    Unpacker.Gives s' (unpackCounted size unitBits limit start consume)
      fun found => ∃ total, invariant total found ∧ (∀ l, limit = some l → total ≤ l) ∧ inRoot size total = true := by
  refine (Unpacker.gives_remaining s').bind fun ahead s1 n1 _ hm1 => ?_
  have hm2 := LawfulBitSource.moved_trans hm hm1
  refine (gives_unpack s1 _).bind fun chunk s2 n2 _ hm3 => ?_
  have hm4 := LawfulBitSource.moved_trans hm2 hm3
  refine (gives_unpackFrom h _ unitBits limit (ahead + 1) s2 _ 0 start chunk hm4 hi).bind ?_
  rintro ⟨total, found⟩ s3 n3 ⟨hf, hl⟩ _
  exact Unpacker.gives_ite (fun hs => Unpacker.gives_pure s3 ⟨total, hf, hl, hs⟩) fun _ => Unpacker.gives_throw s3 _ _

theorem gives_unpackRoot (h : Keeps s consume invariant) {size : Bounds Nat} (ho : size.Ordered) (unitBits : Nat)
    (limit : Option Nat) {start : α} (hi : invariant 0 start) {s' : σ} {n : Nat} (hm : LawfulBitSource.Moved s n s') :
    Unpacker.Gives s' (unpackRoot size unitBits limit start consume)
      fun found => ∃ total, invariant total found ∧ (∀ l, limit = some l → total ≤ l) ∧ inRoot size total = true := by
  unfold unpackRoot
  by_cases h0 : size.upper = some 0
  · rw [if_pos h0]
    refine Unpacker.gives_pure s' ⟨0, hi, fun l _ => Nat.zero_le l, (inRoot_iff size 0).mpr ⟨?_, fun upper _ => Nat.zero_le upper⟩⟩
    cases hl : size.lower with
    | none => exact Nat.le_refl 0
    | some lower => exact ho lower 0 hl h0
  rw [if_neg h0]
  cases hf : fixedSize size with
  | none => exact gives_unpackCounted h size unitBits limit hi hm
  | some count =>
    obtain ⟨hl, hu⟩ := fixedSize_eq_some hf
    refine (gives_checkChunk s' _ _ _ _).bind fun _ s1 n1 hlim hm1 => ?_
    refine (h s1 _ 0 start count (LawfulBitSource.moved_trans hm hm1) hi).weaken fun found hfound => ?_
    rw [Nat.zero_add] at hfound
    refine ⟨count, hfound, hlim, (inRoot_iff size count).mpr ⟨by rw [hl]; exact Nat.le_refl count, fun upper h' => ?_⟩⟩
    rw [hu] at h'
    exact Nat.le_of_eq (Option.some.inj h')

/-- The size of a content that is read lies within the limit, and within the bounds unless the type is extensible. -/
theorem gives_unpack (h : Keeps s consume invariant) {size : Bounds Nat} (ho : size.Ordered) (extensible : Bool)
    (unitBits : Nat) (limit : Option Nat) {start : α} (hi : invariant 0 start) :
    Unpacker.Gives s (unpack size extensible unitBits limit start consume)
      fun found => ∃ total, invariant total found ∧ (∀ l, limit = some l → total ≤ l) ∧
        (extensible = true ∨ inRoot size total = true) := by
  unfold unpack
  cases extensible with
  | false =>
    rw [if_neg Bool.false_ne_true]
    refine (gives_unpackRoot h ho unitBits limit hi (LawfulBitSource.moved_refl s)).weaken ?_
    rintro found ⟨total, ht, hl, hs⟩
    exact ⟨total, ht, hl, Or.inr hs⟩
  | true =>
    rw [if_pos rfl]
    refine (Unpacker.gives_bit s).bind fun outside s1 n1 _ hm => Unpacker.gives_ite (fun _ => ?_) fun _ => ?_
    · refine (gives_unpackCounted h .free unitBits limit hi hm).weaken ?_
      rintro found ⟨total, ht, hl, _⟩
      exact ⟨total, ht, hl, Or.inl rfl⟩
    · refine (gives_unpackRoot h ho unitBits limit hi hm).weaken ?_
      rintro found ⟨total, ht, hl, _⟩
      exact ⟨total, ht, hl, Or.inl rfl⟩

end Unpack

end SizedContent

end UnalignedPer
