import UnalignedPer.Proofs.Schema.Origin
import UnalignedPer.Proofs.Value.Json

/-!
# Values of a schema as JSON

The types of a schema have names that differ and bounds that are ordered, so all that is known of values as JSON and of values
that were read is known of them (`Schema.ofJson_toJson_same`).
-/

namespace UnalignedPer

/-- Values as JSON, for every type in a schema that was read.
1. A value of the shape of the type is shown as a document, and from the document the same value is read, without a report.
2. Whatever is decoded as a value of the type has its shape. Its bit strings have to be shorter than `2 ^ 63` bits, which they
   are if the message is, or if lengths are limited to that. -/
theorem Schema.ofJson_toJson_same {file : String} {document : Json} {schema : Schema} {top type : Descriptor}
    (hs : (Schema.parse file document).1 = .ok schema) (ht : top ∈ schema.types) (hholds : top.Holds type) :
    (∀ value, type.shapes (2 ^ 63 - 1) value = true → ∃ json again, value.toJson type = .ok json ∧
      (∀ location, Value.ofJson type location json = (.ok again, #[])) ∧ again.same value = true) ∧
    ∀ (settings : Settings) data length found, min length (data.size * 8) < 2 ^ 63 ∨ settings.maxLength.toNat < 2 ^ 63 →
      (decode settings type data length).1 = .ok found → type.shapes (2 ^ 63 - 1) found.value = true := by
  refine ⟨fun value h => ?_, fun settings data length found hlength h => ?_⟩
  · obtain ⟨json, hj, hread, hsame⟩ := Value.exists_toJson (distinct_of_holds hs ht hholds) h
    exact ⟨json, value.trim, hj, hread, hsame⟩
  · exact Descriptor.shapes_of_decode (ordered_of_holds hs ht hholds) (by omega) h

/-- A schema of signals, which carry some bits and may be urgent. -/
def Json.signals : Json :=
  .obj [("types", .obj [("Signal", .obj [("fields", .arr [
      .obj [("name", .str "bits"), ("type", .obj [("kind", .str "bit-string"), ("max", .int 6), ("min", .int 0)])],
      .obj [("name", .str "urgent"), ("optional", .bool true), ("type", .obj [("kind", .str "null")])]]),
    ("kind", .str "sequence")])])]

/-- The type of signals. -/
def Descriptor.signal : Descriptor :=
  .sequence "Signal" [⟨"bits", false, .simple "" (.bitString ⟨some 0, some 6⟩) false⟩,
    ⟨"urgent", true, .simple "" .null false⟩] none

/-- An urgent signal of three bits in two octets, where one is enough, and a signal that was decoded. -/
theorem Schema.ofJson_toJson_same_signal : (Schema.parse "" .signals).1 = .ok ⟨[.signal]⟩ ∧
    (let value := Value.sequence [some (.bits ⟨#[0xA0, 0xFF], 3⟩), some .null]
     Descriptor.signal.shapes (2 ^ 63 - 1) value = true ∧ ∃ json again, value.toJson .signal = .ok json ∧
       (∀ location, Value.ofJson .signal location json = (.ok again, #[])) ∧ again.same value = true) ∧
    (decode .standard .signal #[0x3A] 7).1 = .ok ⟨.sequence [some (.bits ⟨#[0xA0], 3⟩), none], 7⟩ ∧
      Descriptor.signal.shapes (2 ^ 63 - 1) (.sequence [some (.bits ⟨#[0xA0], 3⟩), none]) = true :=
  have hs : (Schema.parse "" .signals).1 = .ok ⟨[.signal]⟩ := by cbv
  have hd : (decode .standard .signal #[0x3A] 7).1 = .ok ⟨.sequence [some (.bits ⟨#[0xA0], 3⟩), none], 7⟩ := by cbv
  have hv : Descriptor.signal.shapes (2 ^ 63 - 1) (.sequence [some (.bits ⟨#[0xA0, 0xFF], 3⟩), some .null]) = true := by
    decide +kernel
  have ⟨hshow, hshape⟩ := ofJson_toJson_same hs (List.mem_singleton.mpr rfl) .refl
  ⟨hs, ⟨hv, hshow _ hv⟩, hd, hshape .standard #[0x3A] 7 _ (.inl (by decide)) hd⟩

end UnalignedPer
