import UnalignedPer.Proofs.BitString
import UnalignedPer.Proofs.Message.Placement
import UnalignedPer.Proofs.Message.Reading
import UnalignedPer.Proofs.SizedContent.Chunking
import UnalignedPer.Proofs.Text.CharacterString

/-!
# Contents in any chunks are read the same

However a content is cut into chunks (`SizedContent.Chunking`), what is read is the content, and the cursor ends behind the last
chunk. Strings are put together chunk by chunk, each onto what was read before it. The content of an open type is read from the
message when it stands in a single chunk, and from octets of its own when it was put together from fragments. As a read does not
depend on the place of its bits (`Reader.portable_of_placeless`), it comes to the same in both cases, namely to what it comes to on
the octets alone (`Reader.inOctets`).
-/

namespace UnalignedPer

open SizedContent (Chunking Part)

variable {σ τ : Type} [BitSource σ] [LawfulBitSource σ] [BitSink τ] [LawfulBitSink τ]

namespace SizedContent

/-- However the units are cut into chunks, the action takes them with the same result. -/
def TakesChunked {α : Type} (s : σ) (action : Unpacker σ α) (units : List (List Bool)) (result : α) : Prop :=
  ∀ bits, Chunking units bits → Unpacker.Takes s action bits result

/-- The action writes the units, cut into chunks in one of the legal ways. -/
def WritesChunked (t : τ) (action : Packer τ Unit) (units : List (List Bool)) : Prop :=
  ∃ bits, Chunking units bits ∧ Packer.Writes t action bits ()

/-- The form of a content without bounds is one way to cut it. -/
theorem chunking_form (units : List (List Bool)) : Chunking units (form .free false units) := by
  rw [form_free]
  exact chunking_fragments units

end SizedContent

open SizedContent (TakesChunked WritesChunked)

/-! ## Strings -/

namespace OctetString

/-- The units of an octet string are its bits, eight by eight. -/
theorem flatten_units (value : Octets) : (units value).flatten = Octets.bitsFrom value 0 (value.size * 8) := by
  have hall := Bits.flatten_octets (Octets.bitsFrom value 0 (value.size * 8)) 0 value.size
    (by rw [Octets.length_bitsFrom]; omega)
  rw [← units, List.drop_zero, List.take_of_length_le (Nat.le_of_eq (length_units value)), Nat.zero_mul, List.drop_zero,
    List.take_of_length_le (Nat.le_of_eq (Octets.length_bitsFrom ..))] at hall
  exact hall

/-- An octet string is read from any chunking of its octets. -/
theorem takesChunked_unpack (s : σ) {value : Octets} {limit : Option Nat} (hl : ∀ l, limit = some l → value.size ≤ l) :
    TakesChunked s (unpack .free false limit) (units value) value := by
  intro bits hc
  have h := SizedContent.takes_unpack_chunking (consumes_unpackChunk s (Octets.bitsFrom value 0 (value.size * 8)))
    (readable_units value hl) hc
  rw [← units, length_units, ofBits_units, Nat.zero_mul, List.take_zero, Octets.ofBits_nil] at h
  exact h

/-- The octets of a chunk are laid behind those before it. -/
theorem takes_unpackChunk (s : σ) (sofar : Octets) {bits : List Bool} {count : Nat} (hl : bits.length = count * 8) :
    Unpacker.Takes s (unpackChunk sofar count) bits
      (Octets.overlay (Octets.growTo sofar (sofar.size + count)) (sofar.size * 8) bits) := by
  unfold unpackChunk
  rw [← hl]
  exact Unpacker.takes_run s _ _ _

/-- The fragment that was announced and the chunks behind it are put together. -/
theorem takes_unpackFrom_pieces (s : σ) {value : Octets} {limit : Option Nat} {piece : List (List Bool)}
    {pieces : List (List (List Bool))} {bits : List Bool} {fuel : Nat} (hl : ∀ l, limit = some l → value.size ≤ l)
    (hp : (piece :: pieces).flatten = units value) (hc : SizedContent.Chunked (pieces.map Part.ofUnits) bits)
    (hfuel : bits.length ≤ fuel) :
    Unpacker.Takes s (SizedContent.unpackFrom .free 8 limit unpackChunk 0 #[] ⟨piece.length, true⟩ (fuel + 1))
      (piece.flatten ++ bits) (0 + piece.length + SizedContent.total (pieces.map Part.ofUnits), value) := by
  have hfitting := (readable_units value hl).fitting hp
  have hreads := SizedContent.reads_pieces (consumes_unpackChunk s (Octets.bitsFrom value 0 (value.size * 8)))
    (piece :: pieces) 0 (Nat.zero_le _) hp
  rw [← units, length_units, ofBits_units, Nat.zero_mul, List.take_zero, Octets.ofBits_nil] at hreads
  cases hreads with
  | next hpart hrest =>
    exact SizedContent.takes_unpackFrom_fragment hfitting.head.1 hfitting.head.2 (hpart s 0 (LawfulBitSource.moved_refl s))
      fun s1 hm => SizedContent.takes_unpackFrom_chunked hc fuel hm hrest hfitting.tail hfuel

/-- An octet string is written as one of the chunkings of its octets. -/
theorem writesChunked_pack (t : τ) (value : Octets) : WritesChunked t (pack .free false value) (units value) :=
  ⟨_, SizedContent.chunking_form (units value), (writesIf_pack t .free false value).1 (.inr (SizedContent.inRoot_free _))⟩

end OctetString

namespace BitString

/-- A bit string is read from any chunking of its bits, in as few octets as possible. -/
theorem takesChunked_unpack (s : σ) {value : BitString} {limit : Option Nat}
    (hl : ∀ l, limit = some l → value.length.toNat ≤ l) :
    TakesChunked s (unpack .free false limit) (Bits.singles value.toList) value.tidy := by
  intro bits hc
  have h := SizedContent.takes_unpack_chunking (consumes_unpackChunk s value.toList) (readable_singles value hl) hc
  rw [Bits.length_singles, length_toList, List.take_of_length_le (Nat.le_of_eq (length_toList value)), List.take_zero,
    Octets.ofBits_nil] at h
  rw [← List.append_nil bits]
  refine h.bind fun s1 _ => ?_
  simp only [UInt64.ofNat_toNat]
  exact Unpacker.takes_pure s1 _

/-- A bit string is written as one of the chunkings of its bits. -/
theorem writesChunked_pack (t : τ) {value : BitString} (h : value.covered = true) :
    WritesChunked t (pack .free false value) (Bits.singles value.toList) :=
  ⟨_, SizedContent.chunking_form (Bits.singles value.toList),
    (writesIf_pack t .free false value).1 ⟨h, .inr (SizedContent.inRoot_free _)⟩⟩

end BitString

namespace CharacterString

/-- What a text is cut into: its octets if it is a UTF8String, and its characters otherwise. -/
def contentUnits (alphabet : Alphabet) (text : Octets) : List (List Bool) :=
  match alphabet with
  | .utf8 => OctetString.units text
  | _ => units alphabet text

/-- A character string is read from any chunking of its characters. -/
theorem takesChunked_unpack (s : σ) {alphabet : Alphabet} {text : Octets} {limit : Option Nat}
    (hlegal : legal alphabet text = true) (hl : ∀ l, limit = some l → text.size ≤ l) :
    TakesChunked s (unpack alphabet .free false limit) (contentUnits alphabet text) text := by
  intro bits hc
  by_cases h : alphabet = .utf8
  · subst h
    rw [← List.append_nil bits]
    refine (OctetString.takesChunked_unpack s hl bits hc).bind fun s1 _ => ?_
    rw [if_pos (show Utf8.isLegal text = true from hlegal)]
    exact Unpacker.takes_pure s1 text
  · have hunits : contentUnits alphabet text = units alphabet text := by
      cases alphabet <;> first | exact absurd rfl h | rfl
    rw [hunits] at hc
    have ht := SizedContent.takes_unpack_chunking (consumes_unpackCharacters s h hlegal) (readable_units alphabet hl) hc
    rw [length_units, Array.extract_size, Array.extract_zero] at ht
    cases alphabet <;> first | exact absurd rfl h | exact ht

/-- A character string is written as one of the chunkings of its characters. -/
theorem writesChunked_pack (t : τ) {alphabet : Alphabet} {text : Octets} (hlegal : legal alphabet text = true) :
    WritesChunked t (pack alphabet .free false text) (contentUnits alphabet text) := by
  have hform : Chunking (contentUnits alphabet text) (form alphabet .free false text) := by
    cases alphabet <;> exact SizedContent.chunking_form _
  exact ⟨_, hform, (writesIf_pack t alphabet .free false text).1 ⟨hlegal, .inr (.inr (SizedContent.inRoot_free _))⟩⟩

end CharacterString

/-- An open type is skipped whatever the chunking of its octets is. -/
theorem OpenType.takesChunked_skip (s : σ) (value : Octets) : TakesChunked s skip (OctetString.units value) () :=
  fun _ hc => SizedContent.takes_unpack_chunking (consumes_skipOctets s (Octets.bitsFrom value 0 (value.size * 8)))
    (OctetString.readable_units value fun _ hl => (by cases hl)) hc

/-! ## Open types -/

/-- The octets in front of a view stand in it as they stand alone. -/
theorem BitView.shifted_of_prefix {v : BitView} {data : Octets} (h : Octets.bitsFrom data 0 (data.size * 8) <+: v.toList) :
    Shifted v.position (ofOctets data (data.size * 8)) { v with stop := v.position + data.size * 8 } where
  position := rfl
  stop := by
    show v.position + data.size * 8 = v.position + min (data.size * 8) (data.size * 8)
    rw [Nat.min_self]
  within := Nat.zero_le _
  bits q hq := by
    have hq' : q < data.size * 8 := by
      simpa only [ofOctets, Nat.min_self] using hq
    have hlen := h.length_le
    rw [Octets.length_bitsFrom, length_toList] at hlen
    have hbit := List.IsPrefix.getElem h (i := q) (by rw [Octets.length_bitsFrom]; exact hq')
    simp only [toList, Octets.getElem_bitsFrom, Nat.zero_add] at hbit
    exact hbit.symm

namespace Reader

open LawfulBitSource (Moved)

variable {α : Type} {r s : Reader} {content : ReaderM α} {data : Octets} {n : Nat}

/-- A reader that stands in some octets alone, and not in a sequence. -/
def inOctets (r : Reader) (data : Octets) : Reader :=
  { r with view := .ofOctets data (data.size * 8), presence := none }

/-- What has moved in a message stands like a reader that stands in the octets alone, if it is made to look at them. -/
theorem shifted_inOctets {distance : Nat} {v : BitView} (hm : Moved { r with presence := none } n s)
    (hv : BitView.Shifted distance (.ofOctets data (data.size * 8)) v) :
    Shifted distance (r.inOctets data) { s with view := v } where
  view := hv
  presence := hm.2
  claimed := hm.1.claimed
  marker := hm.1.marker
  depth := hm.1.depth
  settings := hm.1.settings

/-- A content in a single chunk is read as from its octets alone. -/
theorem inChunk_inOctets (h : Portable content) (hm : Moved { r with presence := none } n s)
    (hb : Octets.bitsFrom data 0 (data.size * 8) <+: s.view.toList) :
    let found := outcome (inChunk data.size content) s
    found.1 = (outcome content (r.inOctets data)).1 ∧ Moved s.view (if found.1.isOk then data.size * 8 else 0) found.2.view := by
  have hle := hb.length_le
  rw [Octets.length_bitsFrom, BitView.length_toList] at hle
  unfold outcome
  rw [inChunk_run, if_neg (Nat.not_lt.mpr hle)]
  rcases (h _).cases (shifted_inOctets hm (BitView.shifted_of_prefix hb)) with
    ⟨x, r', s', hr, hs, -⟩ | ⟨fault, r', s', hr, hs, -⟩
  · rw [hr, hs]
    exact ⟨rfl, rfl, hle⟩
  · rw [hr, hs]
    exact ⟨rfl, LawfulBitSource.moved_refl s.view⟩

/-- A content in fragments is read as from its octets alone, and the cursor ends behind them even if it fails. -/
theorem inFragments_inOctets (h : Portable content) (hm : Moved { r with presence := none } n s)
    (hl : data.size ≤ r.settings.maxLength.toNat) {piece : List (List Bool)} {pieces : List (List (List Bool))} {bits : List Bool}
    (hp : (piece :: pieces).flatten = OctetString.units data) (hc : SizedContent.Chunked (pieces.map Part.ofUnits) bits)
    (hb : piece.flatten ++ bits <+: s.view.toList) :
    let found := outcome (inFragments ⟨piece.length, true⟩ content) s
    found.1 = (outcome content (r.inOctets data)).1 ∧ Moved s.view (piece.flatten ++ bits).length found.2.view := by
  have hle := hb.length_le
  rw [List.length_append, BitView.length_toList] at hle
  have hlimit : ∀ l, some s.settings.maxLength.toNat = some l → data.size ≤ l := by
    rintro _ ⟨⟩
    rw [hm.1.settings]
    exact hl
  obtain ⟨s1, hrun, hm1⟩ :=
    OctetString.takes_unpackFrom_pieces s hlimit hp hc (show bits.length ≤ s.view.remaining by omega) hb
  have hcontent := h 0 (shifted_inOctets (LawfulBitSource.moved_trans hm hm1) (BitView.shifted_ofOctets data (data.size * 8)))
  have hfragments : inFragments ⟨piece.length, true⟩ content s = withView (.ofOctets data (data.size * 8)) content s1 := by
    change (SizedContent.unpackFrom .free 8 (some s.settings.maxLength.toNat) OctetString.unpackChunk 0 #[] ⟨piece.length, true⟩
      (s.view.remaining + 1) >>= fun found => withView (.ofOctets found.2 (found.2.size * 8)) content) s = _
    rw [run_bind, hrun]
  have hview : outcome (withView (.ofOctets data (data.size * 8)) content) s1 = _ :=
    outcome_afterwards (fun t => { t with view := s1.view }) content { s1 with view := .ofOctets data (data.size * 8) }
  unfold outcome at hview ⊢
  rw [hfragments, hview]
  exact ⟨hcontent.1.symm, hm1.1.view⟩

/-- What an open type is read with once its first chunk is announced. -/
theorem inOpenType_announced (content : ReaderM α) {chunk : LengthDeterminant.Chunk} {header behind : List Bool}
    (ha : LengthDeterminant.Announces chunk header) (hb : header ++ behind <+: r.view.toList) :
    ∃ s, Moved { r with presence := none } header.length s ∧ behind <+: s.view.toList ∧
      let found := outcome (if chunk.isFragment then inFragments chunk content else inChunk chunk.units content) s
      outcome (inOpenType content) r = (found.1, { found.2 with presence := r.presence, marker := r.marker }) := by
  obtain ⟨r1, hrun, hm⟩ := ha.takes_unpackFree { r with presence := none } ((List.prefix_append _ _).trans hb)
  have hnoted := LawfulBitSource.moved_trans hm
    (moved_noted .verbose (fun () => "open type of " ++ toString chunk.units ++ " octets") r1)
  refine ⟨_, hnoted, ?_, ?_⟩
  · have hbehind := hb.drop header.length
    rw [List.drop_left] at hbehind
    rw [show (noted _ _ r1).view.toList = _ from LawfulBitSource.ahead_of_moved hnoted]
    exact hbehind
  · refine (outcome_afterwards (fun s => { s with presence := r.presence, marker := r.marker }) _ _).trans ?_
    unfold outcome
    rw [run_bind, hrun]
    rfl

/-- An open type is read as from its octets alone, however they are cut into chunks. The cursor ends behind the last chunk, except
that a content that fails in a single chunk leaves it before the octets. -/
theorem inOpenType_inOctets (h : Portable content) (hl : data.size ≤ r.settings.maxLength.toNat) {bits : List Bool}
    (hc : Chunking (OctetString.units data) bits) (hb : bits <+: r.view.toList) :
    let found := outcome (inOpenType content) r
    found.1 = (outcome content (r.inOctets data)).1 ∧
      Moved r.view
        (if found.1.isOk ∨ LengthDeterminant.fragmentUnit ≤ data.size then bits.length else bits.length - data.size * 8)
        found.2.view := by
  obtain ⟨pieces, hp, hc⟩ := hc
  have hsize := congrArg List.length hp
  rw [OctetString.length_units] at hsize
  have hoctets := congrArg List.flatten hp
  rw [OctetString.flatten_units] at hoctets
  -- The chunks are those of the parts, and the pieces are found again behind them.
  generalize hparts : pieces.map Part.ofUnits = parts at hc
  cases hc with
  | @last part header ha =>
    obtain ⟨piece, rfl, rfl⟩ := List.map_eq_singleton_iff.mp hparts
    rw [List.flatten_singleton] at hsize hoctets
    obtain ⟨s, hm, hbehind, hout⟩ := inOpenType_announced content ha hb
    have hlt := ha.last_lt
    have hcount : (Part.ofUnits piece).count = data.size := hsize
    have hbits : (Part.ofUnits piece).bits = Octets.bitsFrom data 0 (data.size * 8) := hoctets
    rw [hbits] at hbehind
    rw [hcount] at hout hlt
    rw [if_neg Bool.false_ne_true] at hout
    obtain ⟨hresult, hpassed⟩ := inChunk_inOctets h hm hbehind
    have hmoved := LawfulBitSource.moved_trans hm.1.view hpassed
    have hlength : (header ++ (Part.ofUnits piece).bits).length = header.length + data.size * 8 := by
      rw [hbits, List.length_append, Octets.length_bitsFrom]
    rw [hout, hlength, Nat.add_sub_cancel]
    refine ⟨hresult, ?_⟩
    by_cases hok : (outcome (inChunk data.size content) s).1.isOk = true
    · rw [if_pos hok] at hmoved
      rw [if_pos (.inl hok)]
      exact hmoved
    · rw [if_neg hok] at hmoved
      rw [if_neg (not_or.mpr ⟨hok, Nat.not_le.mpr hlt⟩)]
      exact hmoved
  | @fragment part parts header behind ha hrest =>
    obtain ⟨piece, rest, rfl, rfl, rfl⟩ := List.map_eq_cons_iff.mp hparts
    obtain ⟨s, hm, hbehind, hout⟩ := inOpenType_announced content ha hb
    rw [if_pos rfl] at hout
    obtain ⟨hresult, hpassed⟩ := inFragments_inOctets h hm hl hp hrest hbehind
    have hmoved := LawfulBitSource.moved_trans hm.1.view hpassed
    have hlarge : LengthDeterminant.fragmentUnit ≤ data.size := by
      obtain ⟨units, hpos, -, hcount⟩ := ha.fragment_eq
      have hpiece : piece.length = units * LengthDeterminant.fragmentUnit := hcount
      have hone := Nat.mul_le_mul_right LengthDeterminant.fragmentUnit hpos
      rw [List.flatten_cons, List.length_append, hpiece] at hsize
      omega
    rw [hout]
    refine ⟨hresult, ?_⟩
    rw [if_pos (.inr hlarge), List.length_append]
    exact hmoved

end Reader

/-! ## Every read of chunks -/

open Reader (Placeless)

/-- A content without size bounds may be cut into chunks as a writer does it or in any other legal way. Octet strings, bit strings and
character strings are read as the content, an open type is passed over, and the content of an open type, whatever it is as long as
it does not ask for its place, comes to what it comes to on the octets alone. The cursor ends behind the last chunk, except that a
content that fails in an open type of a single chunk leaves it before the octets. -/
theorem chunks_read_alike (t : τ) (s : σ) :
    (∀ value : Octets, WritesChunked t (OctetString.pack .free false value) (OctetString.units value) ∧
      ∀ limit : Option Nat, (∀ l, limit = some l → value.size ≤ l) →
        TakesChunked s (OctetString.unpack .free false limit) (OctetString.units value) value) ∧
    (∀ value : BitString,
      (value.covered = true → WritesChunked t (BitString.pack .free false value) (Bits.singles value.toList)) ∧
      ∀ limit : Option Nat, (∀ l, limit = some l → value.length.toNat ≤ l) →
        TakesChunked s (BitString.unpack .free false limit) (Bits.singles value.toList) value.tidy) ∧
    (∀ (alphabet : Alphabet) (text : Octets), CharacterString.legal alphabet text = true →
      WritesChunked t (CharacterString.pack alphabet .free false text) (CharacterString.contentUnits alphabet text) ∧
      ∀ limit : Option Nat, (∀ l, limit = some l → text.size ≤ l) →
        TakesChunked s (CharacterString.unpack alphabet .free false limit) (CharacterString.contentUnits alphabet text) text) ∧
    (∀ value : Octets, WritesChunked t (OpenType.pack value) (OctetString.units value) ∧
      TakesChunked s OpenType.skip (OctetString.units value) ()) ∧
    ∀ {α : Type} (content : ReaderM α) (r : Reader) (value : Octets) (bits : List Bool), Placeless content →
      value.size ≤ r.settings.maxLength.toNat → Chunking (OctetString.units value) bits → bits <+: r.view.toList →
      let found := outcome (Reader.inOpenType content) r
      found.1 = (outcome content (r.inOctets value)).1 ∧
        LawfulBitSource.Moved r.view
          (if found.1.isOk ∨ LengthDeterminant.fragmentUnit ≤ value.size then bits.length else bits.length - value.size * 8)
          found.2.view :=
  ⟨fun value => ⟨OctetString.writesChunked_pack t value, fun _ hl => OctetString.takesChunked_unpack s hl⟩,
    fun _ => ⟨BitString.writesChunked_pack t, fun _ hl => BitString.takesChunked_unpack s hl⟩,
    fun _ _ hlegal =>
      ⟨CharacterString.writesChunked_pack t hlegal, fun _ hl => CharacterString.takesChunked_unpack s hlegal hl⟩,
    fun value => ⟨OctetString.writesChunked_pack t value, OpenType.takesChunked_skip s value⟩,
    fun _ _ _ _ hcontent hl hc hb => Reader.inOpenType_inOctets (Reader.portable_of_placeless hcontent) hl hc hb⟩

/-- An octet behind a determinant of two octets, where a writer takes one: an octet string, an open type that is passed over, and
open types of a number and of what a script reads. -/
theorem chunks_read_alike_long :
    let bits := true :: false :: Bits.ofNat 1 14 ++ Octets.bitsFrom #[0x85] 0 8
    let r := Reader.ofView (.ofOctets #[0x80, 0x01, 0x85] 24) .standard
    let number := Descriptor.simple "Number" (.integer (.between 0 255)) false
    let script := ReadStep.boolean
    Chunking (OctetString.units #[0x85]) bits ∧ bits <+: r.view.toList ∧
      Unpacker.Takes r (OctetString.unpack .free false (some 1)) bits #[0x85] ∧ Unpacker.Takes r OpenType.skip bits () ∧
      (outcome (Reader.inOpenType number.read) r).1 = (outcome number.read (r.inOctets #[0x85])).1 ∧
      (outcome (Reader.inOpenType (script.run "")) r).1 = (outcome (script.run "") (r.inOctets #[0x85])).1 := by
  intro bits r number script
  have hannounces : LengthDeterminant.Announces ⟨1, false⟩ (true :: false :: Bits.ofNat 1 14) := .long (by decide)
  have hchunking : Chunking (OctetString.units #[0x85]) bits := ⟨[OctetString.units #[0x85]], rfl, .last hannounces⟩
  have hahead : bits <+: r.view.toList := by decide +kernel
  obtain ⟨hoctets, -, -, hskip, hopen⟩ := chunks_read_alike BitBuffer.empty r
  refine ⟨hchunking, hahead, (hoctets #[0x85]).2 (some 1) ?_ bits hchunking, (hskip #[0x85]).2 bits hchunking,
    (hopen number.read r #[0x85] bits (Descriptor.placeless_read number) (by decide) hchunking hahead).1,
    (hopen (script.run "") r #[0x85] bits (ReadStep.placeless_run "" script) (by decide) hchunking hahead).1⟩
  rintro _ ⟨⟩
  decide

end UnalignedPer
