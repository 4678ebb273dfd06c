import Mathlib.Data.List.Basic
import UnalignedPer.Command
import UnalignedPer.Proofs.Command.Options
import UnalignedPer.Proofs.Message.Normalization
import UnalignedPer.Proofs.Value.Json

/-!
# The command line decodes what it encodes

A run that encodes prints the number of bits and the digits of their octets. A run that decodes these digits under the same
schema, type and settings prints a text, and the text holds a document from which the same value is read. It warns of nothing.
The format of the documents is any that reads back the document of the value (`JsonFormat.ReadsBack`).

One message is left out. An option that is not given is empty, so a message without bits, as that of the null type, passes for
one that is missing.
-/

namespace UnalignedPer

namespace Command

variable {format : JsonFormat} {files : FileAccess Id}

/-! ## What a run reads -/

/-- The settings depend on the settings file and the trace level only. -/
theorem loadSettings_congr {options options' : Options} (hc : options.config = options'.config)
    (ht : options.trace = options'.trace) : loadSettings format files options = loadSettings format files options' := by
  unfold loadSettings
  rw [hc, ht]

/-- A trace level changes nothing about lengths. -/
theorem maxLength_override {trace : Option String} {loaded settings : Settings} (hl : loaded.maxLength.toNat < 2 ^ 63)
    (h : Id.run (match (.ok loaded : Except String Settings), trace with
      | .ok settings, some name =>
        match TraceLevel.ofName? name with
        | some level => pure (.ok { settings with trace := level })
        | none => pure (.error ("Invalid --trace value: " ++ name ++ "\n" ++ usage))
      | loaded, _ => pure loaded) = .ok settings) : settings.maxLength.toNat < 2 ^ 63 := by
  cases trace with
  | none =>
    cases h
    exact hl
  | some name =>
    simp only at h
    split at h
    · cases h
      exact hl
    · cases h

/-- The greatest length is below `2 ^ 63` under any options. -/
theorem maxLength_loadSettings {options : Options} {settings : Settings}
    (h : Id.run (loadSettings format files options) = .ok settings) : settings.maxLength.toNat < 2 ^ 63 := by
  have hstandard : Settings.standard.maxLength.toNat < 2 ^ 63 := by decide
  unfold loadSettings at h
  split at h
  · exact maxLength_override hstandard h
  · simp only [Id.run_bind] at h
    split at h
    · change Except.error _ = Except.ok settings at h
      cases h
    · split at h
      · change Except.error _ = Except.ok settings at h
        cases h
      · exact maxLength_override (Settings.maxLength_apply _ hstandard) h

/-- The text of a value file with the name that it is reported under. -/
def valueText (files : FileAccess Id) (path : String) : Option (String × String) :=
  if path = "-" then some ("<stdin>", Id.run files.stdin) else (Id.run (files.read path)).map fun text => (path, text)

/-- The value of a text is encoded. -/
theorem run_runEncode (format : JsonFormat) (settings : Settings) (type : Descriptor) {path source text : String}
    (h : valueText files path = some (source, text)) :
    Id.run (runEncode format files settings type path) = encodeText format settings type source text := by
  unfold valueText at h
  unfold runEncode
  split at h
  · rename_i hpath
    cases h
    rw [if_pos hpath]
    rfl
  · rename_i hpath
    obtain ⟨found, hread, hfound⟩ := Option.map_eq_some_iff.mp h
    cases hfound
    rw [if_neg hpath]
    simp only [Id.run_bind, hread]
    rfl

/-- What the files of a run hold. -/
structure Found where
  /-- The settings. -/
  settings : Settings
  /-- The schema. -/
  schema : Schema
  /-- The defects of the schema file. -/
  diagnostics : Array Diagnostic
  /-- The type. -/
  type : Descriptor
  /-- The value. -/
  value : Value

/-- The files of a run hold settings, a schema with a type of a name, and a value of that type. -/
structure Finds (format : JsonFormat) (files : FileAccess Id) (schemaFile typeName valueFile : String)
    (config trace : Option String) (found : Found) : Prop where
  /-- The settings are accepted. -/
  settings : Id.run (loadSettings format files (Options.none.share config trace)) = .ok found.settings
  /-- The schema is accepted. -/
  schema : Id.run (loadSchema format files schemaFile) = (.ok found.schema, found.diagnostics)
  /-- The schema has the type. -/
  type : found.schema.lookup? typeName = some found.type
  /-- The value file holds a document of a value of the type. -/
  value : ∃ source text document, valueText files valueFile = some (source, text) ∧ format.parse text = .ok document ∧
    (Value.ofJson found.type ⟨source, ""⟩ document).1 = .ok found.value

/-- Options with the same settings file and trace level load the same settings. -/
theorem Finds.loaded {schemaFile typeName valueFile : String} {config trace : Option String} {found : Found}
    (h : Finds format files schemaFile typeName valueFile config trace found) (options : Options)
    (hc : options.config = (Options.none.share config trace).config)
    (ht : options.trace = (Options.none.share config trace).trace) :
    Id.run (loadSettings format files options) = .ok found.settings :=
  (congrArg Id.run (loadSettings_congr hc ht)).trans h.settings

/-- A schema that is accepted was read from a document. -/
theorem exists_parse_of_loadSchema {path : String} {schema : Schema} {diagnostics : Array Diagnostic}
    (h : Id.run (loadSchema format files path) = (.ok schema, diagnostics)) :
    ∃ document, (Schema.parse path document).1 = .ok schema := by
  unfold loadSchema at h
  simp only [Id.run_bind] at h
  split at h
  · cases h
  · split at h
    · cases h
    · rename_i document _
      exact ⟨document, congrArg Prod.fst h⟩

/-- The names of the type differ in every place. -/
theorem Finds.distinct {schemaFile typeName valueFile : String} {config trace : Option String} {found : Found}
    (h : Finds format files schemaFile typeName valueFile config trace found) :
    found.type.everywhere Descriptor.distinct = true := by
  obtain ⟨document, hdocument⟩ := exists_parse_of_loadSchema h.schema
  exact Schema.distinct_of_parse hdocument (List.mem_of_find?_eq_some h.type)

/-! ## Carrying out a task -/

/-- A task is carried out under the settings and the schema. -/
theorem run_runTask (task : Task) (options : Options) {settings : Settings} {schema : Schema}
    {diagnostics : Array Diagnostic} (hh : options.help = false)
    (hs : Id.run (loadSettings format files options) = .ok settings)
    (hl : Id.run (loadSchema format files options.schema) = (.ok schema, diagnostics)) :
    Id.run (runTask format files task options) =
      if options.schema.isEmpty then failure "--schema is required\n"
      else
        let outcome := Id.run (perform format files task options settings schema)
        { outcome with err := Diagnostic.print mark diagnostics ++ outcome.err } := by
  unfold runTask
  rw [hh, if_neg Bool.false_ne_true]
  split
  · rfl
  · simp only [Id.run_bind, hs, hl]
    rfl

/-- The name of a task starts a run that carries it out. -/
theorem run_task (task : Task) {args : List String} {options : Options} (hp : Options.none.parse args = .ok options) :
    runWith format files (task.name :: args) = runTask format files task options := by
  have hname : Task.ofName? task.name = some task := by cases task <;> decide
  have hhelp : (Options.isHelp task.name || decide (task.name = "help")) = false := by cases task <;> decide
  have hversion : ¬(task.name = "--version" ∨ task.name = "-V") := by cases task <;> decide
  simp only [runWith, hhelp, hversion, hname, hp, Bool.false_eq_true, if_false]

/-- The arguments of a run that encodes start the task with their options. -/
theorem run_encodeArgs (schemaFile typeName valueFile : String) (config trace : Option String) :
    runWith format files (encodeArgs schemaFile typeName valueFile config trace) =
      runTask format files .encode (encodeOptions schemaFile typeName valueFile config trace) :=
  run_task .encode (parse_encodeArgs ..)

/-- The arguments of a run that decodes start the task with their options. -/
theorem run_decodeArgs (schemaFile typeName hex : String) {bits : Nat} (hb : bits < 2 ^ 64) (config trace : Option String) :
    runWith format files (decodeArgs schemaFile typeName hex bits config trace) =
      runTask format files .decode (decodeOptions schemaFile typeName hex bits config trace) :=
  run_task .decode (parse_decodeArgs _ _ _ hb _ _)

/-- A run that encodes needs a type and a value, and encodes the value under the type. -/
theorem run_perform_encode (format : JsonFormat) (files : FileAccess Id) (options : Options) (settings : Settings)
    {schema : Schema} {type : Descriptor} (ht : schema.lookup? options.type = some type) :
    Id.run (perform format files .encode options settings schema) =
      if options.type.isEmpty then failure "--type is required for 'encode' command\n"
      else if options.value.isEmpty then failure "--value is required for 'encode' command\n"
      else Id.run (runEncode format files settings type options.value) := by
  unfold perform
  rw [if_neg (by decide)]
  split
  · rfl
  · simp only [ht, if_true]
    split <;> rfl

/-- A run that decodes needs a type and a message, and decodes the message under the type. -/
theorem run_perform_decode (format : JsonFormat) (files : FileAccess Id) (options : Options) (settings : Settings)
    {schema : Schema} {type : Descriptor} (ht : schema.lookup? options.type = some type) :
    Id.run (perform format files .decode options settings schema) =
      if options.type.isEmpty then failure "--type is required for 'decode' command\n"
      else if options.hex.isEmpty then failure "--hex is required for 'decode' command\n"
      else decodeHex format settings type options.hex options.bits := by
  unfold perform
  rw [if_neg (by decide)]
  split
  · rfl
  · simp only [ht]
    rw [if_neg (by decide)]
    split <;> rfl

/-! ## What is printed -/

/-- What stands in front of a character that it does not hold is found again. -/
theorem append_cons_inj {c : Char} {before before' after after' : List Char} (h : c ∉ before) (h' : c ∉ before')
    (he : before ++ c :: after = before' ++ c :: after') : before = before' ∧ after = after' := by
  have hnone : ∀ {more rest rest' : List Char}, c ∉ more → c :: rest = more ++ c :: rest' → more = [] ∧ rest = rest' := by
    intro more rest rest' hm he
    cases more with
    | nil => exact ⟨rfl, (List.cons.inj he).2⟩
    | cons first more => exact absurd ((List.cons.inj he).1 ▸ List.mem_cons_self ..) hm
  rcases List.append_eq_append_iff.mp he with ⟨more, rfl, hmore⟩ | ⟨more, rfl, hmore⟩
  · obtain ⟨rfl, rfl⟩ := hnone (fun hm => h' (List.mem_append_right _ hm)) hmore
    exact ⟨(List.append_nil _).symm, rfl⟩
  · obtain ⟨rfl, rfl⟩ := hnone (fun hm => h (List.mem_append_right _ hm)) hmore
    exact ⟨List.append_nil _, rfl⟩

/-- The text of an encoding. -/
def encodingText (bits : Nat) (hex : String) : String :=
  "bits: " ++ toString bits ++ "\nhex: " ++ hex ++ "\n"

/-- A number and digits are found again in the text of an encoding. -/
theorem encodingText_inj {bits bits' : Nat} {hex hex' : String} (h : encodingText bits hex = encodingText bits' hex') :
    bits = bits' ∧ hex = hex' := by
  have hbreak : ∀ n : Nat, '\n' ∉ (toString n).toList := by
    intro n hm
    have hdigit := Nat.isDigit_of_mem_toDigits (by decide) (by decide) (String.toList_ofList ▸ hm)
    exact absurd hdigit (by decide)
  have hlists := congrArg String.toList h
  simp only [encodingText, String.toList_append, List.append_assoc] at hlists
  obtain ⟨hnumbers, hafter⟩ := append_cons_inj (hbreak bits) (hbreak bits') (List.append_cancel_left hlists)
  have hdigits := @List.append_cancel_left _ "hex: ".toList _ _ hafter
  exact ⟨Nat.repr_inj.mp (String.toList_inj.mp hnumbers), String.toList_inj.mp (List.append_cancel_right hdigits)⟩

/-! ## Both ways -/

/-- The value of a text is encoded and the encoding printed. -/
theorem encodeText_eq {settings : Settings} {type : Descriptor} {source text : String} {document : Json} {value : Value}
    (hjson : format.parse text = .ok document) (hvalue : (Value.ofJson type ⟨source, ""⟩ document).1 = .ok value) :
    encodeText format settings type source text =
      match encode settings type value with
      | (.error fault, trace) => failure (traceText trace ++ errorLine fault.message)
      | (.ok e, trace) => ⟨0, encodingText e.bitLength (Octets.toHex e.octets), traceText trace⟩ := by
  obtain ⟨found, diagnostics, hfound⟩ : ∃ found diagnostics, Value.ofJson type ⟨source, ""⟩ document = (found, diagnostics) :=
    ⟨_, _, rfl⟩
  rw [hfound] at hvalue
  obtain rfl : found = .ok value := hvalue
  unfold encodeText
  simp only [hjson, hfound]
  rfl

/-- A run that encodes and comes to its end was given a schema, a type and a value, and prints the encoding. -/
theorem Finds.exists_encode {schemaFile typeName valueFile hex err : String} {config trace : Option String} {found : Found}
    {bits : Nat} (h : Finds format files schemaFile typeName valueFile config trace found)
    (hrun : Id.run (runWith format files (encodeArgs schemaFile typeName valueFile config trace)) =
      ⟨0, encodingText bits hex, err⟩) :
    schemaFile.isEmpty = false ∧ typeName.isEmpty = false ∧
      ∃ e, (encode found.settings found.type found.value).1 = .ok e ∧ e.bitLength = bits ∧ Octets.toHex e.octets = hex := by
  obtain ⟨source, text, document, htext, hjson, hvalue⟩ := h.value
  have htask := run_runTask .encode (encodeOptions schemaFile typeName valueFile config trace) rfl (h.loaded _ rfl rfl)
    h.schema
  rw [run_encodeArgs, htask] at hrun
  split at hrun
  · cases hrun
  rename_i hschema
  have hperform := run_perform_encode format files (encodeOptions schemaFile typeName valueFile config trace) found.settings
    h.type
  rw [hperform] at hrun
  split at hrun
  · cases hrun
  rename_i htype
  split at hrun
  · cases hrun
  have hencode := run_runEncode format found.settings found.type htext
  rw [encodeText_eq hjson hvalue] at hencode
  refine ⟨eq_false_of_ne_true hschema, eq_false_of_ne_true htype, ?_⟩
  change ({ Id.run (runEncode format files found.settings found.type valueFile) with err := _ } : Outcome) = _ at hrun
  rw [hencode] at hrun
  split at hrun
  · cases hrun
  · rename_i e trace he
    obtain ⟨hbits, hhex⟩ := encodingText_inj (congrArg Outcome.out hrun)
    exact ⟨e, by rw [he], hbits, hhex⟩

/-- A message that is decoded without a rest is printed without a warning. -/
theorem decodeHex_toHex {settings : Settings} {type : Descriptor} {data : Octets} {bits : Nat} {value : Value} {json : Json}
    (hroom : bits ≤ data.size * 8) (hb : bits < 2 ^ 64) (h : (decode settings type data bits).1 = .ok ⟨value, bits⟩)
    (hj : value.toJson type = .ok json) :
    decodeHex format settings type (Octets.toHex data) (some (UInt64.ofNat bits)) =
      ⟨0, format.print json ++ "\n", traceText (decode settings type data bits).2⟩ := by
  have hword : (UInt64.ofNat bits).toNat = bits := by
    rw [UInt64.toNat_ofNat']
    omega
  obtain ⟨found, lines, hfound⟩ : ∃ found lines, decode settings type data bits = (found, lines) := ⟨_, _, rfl⟩
  rw [hfound] at h ⊢
  obtain rfl : found = .ok ⟨value, bits⟩ := h
  unfold decodeHex
  simp only [Octets.ofHex?_toHex, Option.map_some, Option.getD_some, hword, hfound, hj, Nat.sub_self]
  rw [if_neg (by omega)]
  show (⟨0, format.print json ++ "\n", traceText lines ++ ""⟩ : Outcome) = _
  rw [String.append_empty]

/-- A run that decodes was given a message, or fails. -/
theorem Finds.run_decode {schemaFile typeName valueFile : String} {config trace : Option String} {found : Found}
    (h : Finds format files schemaFile typeName valueFile config trace found) (hschema : schemaFile.isEmpty = false)
    (htype : typeName.isEmpty = false) (hex : String) {bits : Nat} (hb : bits < 2 ^ 64) :
    Id.run (runWith format files (decodeArgs schemaFile typeName hex bits config trace)) =
      let outcome :=
        if hex.isEmpty then failure "--hex is required for 'decode' command\n"
        else decodeHex format found.settings found.type hex (some (UInt64.ofNat bits))
      { outcome with err := Diagnostic.print mark found.diagnostics ++ outcome.err } := by
  obtain ⟨options, ho⟩ : ∃ options, options = decodeOptions schemaFile typeName hex bits config trace := ⟨_, rfl⟩
  have hs : options.schema.isEmpty = false := by rw [ho]; exact hschema
  have ht : options.type.isEmpty = false := by rw [ho]; exact htype
  have hloaded := h.loaded options (by rw [ho]; rfl) (by rw [ho]; rfl)
  have htask := run_runTask .decode options (by rw [ho]; rfl) hloaded (by rw [ho]; exact h.schema)
  have hperform := run_perform_decode format files options found.settings (by rw [ho]; exact h.type)
  rw [run_decodeArgs _ _ _ hb, ← ho, htask, if_neg (ne_true_of_eq_false hs), hperform, if_neg (ne_true_of_eq_false ht), ho]
  rfl

/-- What a run encodes is decoded by a run under the same schema, type and settings: it prints a text that holds a document of
the same value, and warns of nothing. The format has to read back the document of the value, and the run has to admit strings,
lists and open types as long as those of the value. A message without bits is taken for one that is missing. -/
theorem run_decode_encode {schemaFile typeName valueFile hex err : String} {config trace : Option String} {found : Found}
    {bits : Nat} (h : Finds format files schemaFile typeName valueFile config trace found)
    (hcount : found.type.everywhere Descriptor.countable = true) (hbits : bits < 2 ^ 64)
    (hl : found.value.lengthsWithin found.settings.maxLength.toNat = true)
    (ho : found.type.contentsWithin found.settings.maxLength.toNat found.value = true)
    (hprint : ∀ json, found.value.tidy.toJson found.type = .ok json → format.ReadsBack json)
    (hrun : Id.run (runWith format files (encodeArgs schemaFile typeName valueFile config trace)) =
      ⟨0, encodingText bits hex, err⟩) :
    if bits = 0 then
      Id.run (runWith format files (decodeArgs schemaFile typeName hex bits config trace)) =
        failure (Diagnostic.print mark found.diagnostics ++ "--hex is required for 'decode' command\n")
    else
      ∃ data out json, Octets.ofHex? hex = some data ∧
        Id.run (runWith format files (decodeArgs schemaFile typeName hex bits config trace)) =
          ⟨0, out, Diagnostic.print mark found.diagnostics ++ traceText (decode found.settings found.type data bits).2⟩ ∧
        format.parse out = .ok json ∧
        ∀ location, ∃ again, Value.ofJson found.type location json = (.ok again, #[]) ∧ again.same found.value = true := by
  obtain ⟨hschema, htype, e, he, rfl, rfl⟩ := h.exists_encode hrun
  have hholds := holds_of_encode hcount he
  have hempty : Octets.toHex e.octets = "" ↔ e.bitLength = 0 := by
    rw [Octets.toHex_eq_empty_iff, ← Array.size_eq_zero_iff, hholds.size, Octets.countFor]
    omega
  rw [h.run_decode hschema htype _ hbits]
  split
  · rename_i hzero
    rw [if_pos (String.isEmpty_iff.mpr (hempty.mpr hzero))]
    rfl
  · rename_i hsome
    have hfits := Descriptor.fits_of_within hl ho
    have hdecode := hholds.decode hcount hholds.nesting hfits
    have hroom : e.bitLength ≤ e.octets.size * 8 := by
      rw [hholds.size, Octets.countFor]
      omega
    have hsigned := Value.lengthsWithin_mono (Nat.le_sub_one_of_lt (maxLength_loadSettings h.settings)) _ hl
    obtain ⟨json, hj, hread⟩ := Value.ofJson_toJson h.distinct hholds.conforms hsigned
    refine ⟨e.octets, format.print json ++ "\n", json, Octets.ofHex?_toHex _, ?_, hprint json hj, fun location => ?_⟩
    · rw [if_neg fun hnone => hsome (hempty.mp (String.isEmpty_iff.mp hnone)), decodeHex_toHex hroom hbits hdecode hj]
    · exact ⟨found.value.tidy, hread location, found.type.same_tidy _ hholds.conforms⟩

/-- A schema file and a value file. -/
def pairFiles (schema value : String) : FileAccess Id :=
  ⟨fun file => if file = "schema" then some schema else if file = "value" then some value else none, ""⟩

/-- A schema of one type, with an optional field and a mandatory one. -/
def orderSchema : String :=
  "\x7b\"types\": \x7b\"Order\": \x7b\"kind\": \"sequence\", \"fields\": [" ++
  "\x7b\"name\": \"urgent\", \"type\": \x7b\"kind\": \"boolean\"\x7d, \"optional\": true\x7d, " ++
  "\x7b\"name\": \"code\", \"type\": \x7b\"kind\": \"integer\", \"min\": 0, \"max\": 7\x7d\x7d]\x7d\x7d\x7d"

/-- The type of that schema. -/
def orderType : Descriptor :=
  .sequence "Order"
    [⟨"urgent", true, .simple "" .boolean false⟩, ⟨"code", false, .simple "" (.integer ⟨some 0, some 7⟩) false⟩] none

/-- What a run finds of an order. -/
def orderFound : Found :=
  ⟨.standard, ⟨[orderType]⟩, #[], orderType, .sequence [none, some (.integer 5)]⟩

/-- The files of an order. -/
def orderFiles : FileAccess Id :=
  pairFiles orderSchema "\x7b\"code\": 5\x7d"

/-- The files of an order hold it. -/
theorem finds_order : Finds plainJson orderFiles "schema" "Order" "value" none none orderFound where
  settings := rfl
  schema := by cbv
  type := rfl
  value := ⟨"value", "\x7b\"code\": 5\x7d", .obj [("code", .int 5)], rfl, by cbv, by cbv⟩

/-- The document of an order is read back. -/
theorem readsBack_order (json : Json) (h : orderFound.value.tidy.toJson orderType = .ok json) : plainJson.ReadsBack json := by
  have hjson : orderFound.value.tidy.toJson orderType = .ok (.obj [("code", .int 5)]) := by cbv
  obtain rfl : Json.obj [("code", .int 5)] = json := Except.ok.inj (hjson.symm.trans h)
  unfold JsonFormat.ReadsBack
  cbv

/-- A run encodes an order in four bits. -/
theorem run_encode_order :
    Id.run (runWith plainJson orderFiles (encodeArgs "schema" "Order" "value" none none)) = ⟨0, encodingText 4 "50", ""⟩ := by
  have htask := run_runTask .encode (encodeOptions "schema" "Order" "value" none none) rfl (finds_order.loaded _ rfl rfl)
    finds_order.schema
  -- The files are evaluated once, by `finds_order`; only the task itself is left to evaluate.
  rw [run_encodeArgs, htask]
  cbv

/-- An order in four bits, with plain JSON text. -/
theorem run_decode_encode_order : Finds plainJson orderFiles "schema" "Order" "value" none none orderFound ∧
    Id.run (runWith plainJson orderFiles (encodeArgs "schema" "Order" "value" none none)) = ⟨0, encodingText 4 "50", ""⟩ ∧
      ∃ data out json, Octets.ofHex? "50" = some data ∧
        Id.run (runWith plainJson orderFiles (decodeArgs "schema" "Order" "50" 4 none none)) =
          ⟨0, out, Diagnostic.print mark #[] ++ traceText (decode .standard orderType data 4).2⟩ ∧
        plainJson.parse out = .ok json ∧
        ∀ location, ∃ again, Value.ofJson orderType location json = (.ok again, #[]) ∧
          again.same (.sequence [none, some (.integer 5)]) = true :=
  ⟨finds_order, run_encode_order, run_decode_encode finds_order (by decide +kernel) (by decide) (by decide +kernel)
    (by decide +kernel) readsBack_order run_encode_order⟩

/-- A schema of the null type and its value. -/
def nullFiles : FileAccess Id :=
  pairFiles "\x7b\"types\": \x7b\"N\": \x7b\"kind\": \"null\"\x7d\x7d\x7d" "null"

/-- The value of the null type takes no bits, and a message without bits cannot be given. -/
theorem run_decode_encode_null :
    Id.run (runWith plainJson nullFiles (encodeArgs "schema" "N" "value" none none)) = ⟨0, encodingText 0 "", ""⟩ ∧
      Id.run (runWith plainJson nullFiles (decodeArgs "schema" "N" "" 0 none none)) =
        ⟨1, "", "--hex is required for 'decode' command\n"⟩ := by
  constructor <;> cbv

end Command

end UnalignedPer
