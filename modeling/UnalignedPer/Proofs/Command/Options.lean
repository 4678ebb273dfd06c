import Mathlib.Algebra.Group.Nat.Defs
import UnalignedPer.Command.Run

/-!
# Options of a run

An option with its value is taken over and the rest of the arguments is read under the new options (`Options.parse_option`). A
number that is printed is read back as an option. Whatever a settings file chooses, the greatest length stays below `2 ^ 63`,
because it is read as a signed number.
-/

namespace UnalignedPer

/-! ## The greatest length -/

namespace Settings

/-- A positive signed number is below `2 ^ 63` as a word. -/
theorem toNat_toUInt64_lt {length : Int64} (h : 0 < length.toInt) : length.toUInt64.toNat < 2 ^ 63 := by
  have hint : length.toInt = if 2 * length.toUInt64.toNat < 2 ^ 64 then (length.toUInt64.toNat : Int)
      else length.toUInt64.toNat - (2 ^ 64 : Nat) := BitVec.toInt_eq_toNat_cond _
  have hlt := length.toUInt64.toNat_lt
  split at hint <;> omega

/-- The part of a document that sets the greatest length leaves it below `2 ^ 63`. -/
theorem maxLength_applyLength {settings : Settings} (limits : List (String × Json))
    (h : settings.maxLength.toNat < 2 ^ 63) : (settings.applyLength limits).2.maxLength.toNat < 2 ^ 63 := by
  unfold applyLength
  split
  · exact h
  · split
    · rename_i hpositive
      exact toNat_toUInt64_lt hpositive.1
    · exact h

/-- What a document chooses leaves the greatest length below `2 ^ 63`. -/
theorem maxLength_apply {settings : Settings} (document : Json) (h : settings.maxLength.toNat < 2 ^ 63) :
    (settings.apply document).2.maxLength.toNat < 2 ^ 63 := by
  have htrace : ∀ members, (settings.applyTrace members).2.maxLength = settings.maxLength := by
    intro members
    unfold applyTrace
    split <;> rfl
  have hdepth : ∀ (settings : Settings) limits, (settings.applyDepth limits).2.maxLength = settings.maxLength := by
    intro settings limits
    unfold applyDepth
    split
    · rfl
    · split <;> rfl
  have hlimits : ∀ (settings : Settings) members, settings.maxLength.toNat < 2 ^ 63 →
      (settings.applyLimits members).2.maxLength.toNat < 2 ^ 63 := by
    intro settings members h
    unfold applyLimits
    split
    · exact h
    · rename_i limits _
      exact maxLength_applyLength limits (by rw [hdepth]; exact h)
  unfold apply
  split
  · rename_i members
    exact hlimits _ members (by rw [htrace]; exact h)
  · exact h

end Settings

/-! ## Arguments -/

namespace Command

namespace Options

/-- A number that fits a word is read back from its digits. -/
theorem word?_toString {n : Nat} (h : n < 2 ^ 64) : word? (toString n) = some (UInt64.ofNat n) := by
  have hdigits : (toString n).toList = Nat.toDigits 10 n := String.toList_ofList
  have hnonempty : (Nat.toDigits 10 n).isEmpty = false := by
    rw [List.isEmpty_eq_false_iff]
    exact Nat.toDigits_ne_nil
  have hall : (Nat.toDigits 10 n).any (fun c => c < '0' || '9' < c) = false := by
    refine List.any_eq_false.mpr fun c hc => ?_
    have hdigit := Nat.isDigit_of_mem_toDigits (by decide) (by decide) hc
    rw [Char.isDigit, Bool.and_eq_true, decide_eq_true_eq, decide_eq_true_eq] at hdigit
    rw [Bool.or_eq_true, decide_eq_true_eq, decide_eq_true_eq]
    rintro (hlow | hhigh)
    · exact absurd hdigit.1 (UInt32.not_le.mpr hlow)
    · exact absurd hdigit.2 (UInt32.not_le.mpr hhigh)
  have hfold : (Nat.toDigits 10 n).foldl (fun value c => value * 10 + (c.toNat - 48)) 0 = n := by
    have hread : Nat.ofDigitChars 10 (Nat.toDigits 10 n) 0 = n := Nat.ofDigitChars_toDigits (by decide) (by decide)
    simp only [Nat.ofDigitChars, Nat.mul_comm 10] at hread
    exact hread
  rw [word?, hdigits]
  simp only [hnonempty, hall, hfold]
  exact if_pos h

/-- An option with its value is taken over. -/
theorem parse_option {options changed : Options} {name value : String} (hh : isHelp name = false)
    (h : options.set? name value = some (.ok changed)) (rest : List String) :
    options.parse (name :: value :: rest) = changed.parse rest := by
  rw [parse, hh]
  simp only [h, Bool.false_eq_true, if_false]

/-- The options that every task may have: a settings file and a trace level. -/
def sharedArgs (config trace : Option String) : List String :=
  (config.map fun file => ["--config", file]).getD [] ++ (trace.map fun level => ["--trace", level]).getD []

/-- The options after a settings file and a trace level, as far as they are given. -/
def share (options : Options) (config trace : Option String) : Options :=
  { options with config := config.getD options.config, trace := trace.or options.trace }

/-- A settings file and a trace level are taken over, as far as they are given. -/
theorem parse_sharedArgs (options : Options) (config trace : Option String) :
    options.parse (sharedArgs config trace) = .ok (options.share config trace) := by
  have htrace : ∀ options : Options, options.parse ((trace.map fun level => ["--trace", level]).getD []) =
      .ok (options.share .none trace) := by
    intro options
    cases trace with
    | none => rfl
    | some level => exact parse_option rfl rfl []
  cases config with
  | none => exact htrace options
  | some file => exact (parse_option rfl rfl _).trans (htrace _)

end Options

open Options (sharedArgs)

/-- The arguments of a run that encodes a value of a type. -/
def encodeArgs (schema type value : String) (config trace : Option String) : List String :=
  Task.encode.name :: "--schema" :: schema :: "--type" :: type :: "--value" :: value :: sharedArgs config trace

/-- The options of a run that encodes. -/
def encodeOptions (schema type value : String) (config trace : Option String) : Options :=
  { Options.none with schema := schema, type := type, value := value }.share config trace

/-- The arguments of a run that decodes a message of some bits as a value of a type. -/
def decodeArgs (schema type hex : String) (bits : Nat) (config trace : Option String) : List String :=
  Task.decode.name :: "--schema" :: schema :: "--type" :: type :: "--hex" :: hex :: "--bits" :: toString bits ::
    sharedArgs config trace

/-- The options of a run that decodes. -/
def decodeOptions (schema type hex : String) (bits : Nat) (config trace : Option String) : Options :=
  { Options.none with schema := schema, type := type, hex := hex, bits := some (UInt64.ofNat bits) }.share config trace

/-- The options of a run that encodes are read from its arguments. -/
theorem parse_encodeArgs (schema type value : String) (config trace : Option String) :
    Options.none.parse (encodeArgs schema type value config trace).tail =
      .ok (encodeOptions schema type value config trace) := by
  rw [encodeArgs, List.tail_cons, Options.parse_option rfl rfl, Options.parse_option rfl rfl, Options.parse_option rfl rfl,
    Options.parse_sharedArgs, encodeOptions]

/-- The options of a run that decodes are read from its arguments, if the number of bits fits a word. -/
theorem parse_decodeArgs (schema type hex : String) {bits : Nat} (hb : bits < 2 ^ 64) (config trace : Option String) :
    Options.none.parse (decodeArgs schema type hex bits config trace).tail =
      .ok (decodeOptions schema type hex bits config trace) := by
  have hset : ∀ options : Options, options.set? "--bits" (toString bits) =
      some (.ok { options with bits := some (UInt64.ofNat bits) }) := by
    intro options
    simp only [Options.set?, Options.word?_toString hb]
  rw [decodeArgs, List.tail_cons, Options.parse_option rfl rfl, Options.parse_option rfl rfl, Options.parse_option rfl rfl,
    Options.parse_option rfl (hset _), Options.parse_sharedArgs, decodeOptions]

end Command

end UnalignedPer
