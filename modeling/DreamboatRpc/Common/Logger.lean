import DreamboatRpc.CS.Printf

/-!
# The log

`log_dev` and `log_err` format their arguments, put a prefix in front of the text and give all of
it to `log_internal`, which formats once more: there the text is the format, and there are no
arguments.

## Main definitions

* `logInternal`, `logDev`, `logErr` — what the log holds afterwards
* `logLine` — the line that is meant
* `LogInput`, `LogInput.Bears` — what a call of `log_dev` finds, and whether a text has a meaning
  as a format

## Main results

* `log_verbatim_iff` — the line is written if and only if the text has no percent sign and no
  zero byte
* `LogInput.defined_iff` — the call is defined if and only if the log bears the text
* `getValue_logged_iff` — so `GetValue` logs a name if and only if there is no percent sign in it
* `name_interpreted` — the name `%s` is not logged but asks for an argument
-/

namespace DreamboatRpc.Common

open CS

/-- The characters of a string. -/
def chars (s : String) : List UInt8 := s.toUTF8.data.toList

/-- The size of `buffer` in the functions of the log. -/
def logBufferSize : ℕ := 10240

/-! ## The functions -/

section Logging

variable {A : Type*} (convert : List UInt8 → List A → Option (List UInt8))

/-- What is put in front of a line: `"[" << current_timestamp() << "] "`. `now` is what
`strftime` wrote. -/
def timestamp (now : List UInt8) : List UInt8 := chars "[" ++ cString now ++ chars "] "

/-- `log_internal(format, ...)`: the log afterwards, if there is one. `none` where `vsnprintf` is
not defined. -/
def logInternal (now : List UInt8) (buffer : CharArray logBufferSize)
    (logfile : Option (List UInt8)) (format : List UInt8) (arguments : List A) :
    Option (Option (List UInt8)) :=
  match logfile with
  | none => some none
  | some written =>
    (vsnprintf convert buffer.bytes format arguments).map fun filled =>
      some (written ++ cString (timestamp now ++ cString filled))

/-- What `log_dev` and `log_err` do with their prefix. -/
def logPrefixed (start : String) (now : List UInt8) (buffer inner : CharArray logBufferSize)
    (logfile : Option (List UInt8)) (format : List UInt8) (arguments : List A) :
    Option (Option (List UInt8)) :=
  match logfile with
  | none => some none
  | some _ =>
    (vsnprintf convert buffer.bytes format arguments).bind fun filled =>
      -- the text is the format, and nothing is passed for it
      logInternal convert now inner logfile (cStr (chars start ++ cString filled)) []

/-- `log_dev(format, ...)` -/
def logDev (now : List UInt8) (buffer inner : CharArray logBufferSize)
    (logfile : Option (List UInt8)) (format : List UInt8) (arguments : List A) :
    Option (Option (List UInt8)) :=
  logPrefixed convert "Debug: " now buffer inner logfile format arguments

/-- `log_err(format, ...)` -/
def logErr (now : List UInt8) (buffer inner : CharArray logBufferSize)
    (logfile : Option (List UInt8)) (format : List UInt8) (arguments : List A) :
    Option (Option (List UInt8)) :=
  logPrefixed convert "Error: " now buffer inner logfile format arguments

/-- The timestamp, the prefix and the text. -/
def logLine (start : String) (now text : List UInt8) : List UInt8 :=
  timestamp now ++ (chars start ++ text)

variable {convert} {start : String} {now format text written : List UInt8}
  {buffer inner : CharArray logBufferSize} {arguments : List A}

theorem zero_notMem_timestamp (now : List UInt8) : 0 ∉ timestamp now := by
  rw [timestamp, List.mem_append, List.mem_append]
  rintro ((h | h) | h)
  · exact absurd h (by decide +kernel)
  · exact zero_notMem_cString h
  · exact absurd h (by decide +kernel)

/-- As much of the text as fits the first buffer is the format for the second. -/
theorem logPrefixed_eq_logInternal (now : List UInt8) (buffer inner : CharArray logBufferSize)
    (written : List UInt8) (hstart : 0 ∉ chars start)
    (htext : formatText convert (cString format) arguments = some text) :
    ∃ again, cString again = chars start ++ cString (text.take (logBufferSize - 1)) ∧
      logPrefixed convert start now buffer inner (some written) format arguments =
        logInternal convert now inner (some written) again ([] : List A) := by
  obtain ⟨filled, hfilled, hstring⟩ := cString_vsnprintf buffer.bytes htext
  rw [buffer.length_bytes] at hstring
  refine ⟨cStr (chars start ++ cString filled), ?_, by simp [logPrefixed, hfilled]⟩
  -- the second format has no zero in it either
  rw [cString_cStr, hstring, cString_eq_self_iff, List.mem_append, not_or]
  exact ⟨hstart, zero_notMem_cString⟩

/-- A text that fits both buffers with the prefix is formatted again. -/
theorem logPrefixed_eq (hstart : 0 ∉ chars start)
    (htext : formatText convert (cString format) arguments = some text)
    (hfits : (chars start).length + text.length < logBufferSize) :
    logPrefixed convert start now buffer inner (some written) format arguments =
      (formatText convert (chars start ++ cString text) []).map fun line =>
        some (written ++ (timestamp now ++ cString line)) := by
  have hshort : (cString text).length ≤ text.length := strlen_le_length text
  obtain ⟨again, hagain, heq⟩ :=
    logPrefixed_eq_logInternal now buffer inner written hstart htext
  rw [List.take_of_length_le (by omega)] at hagain
  rw [heq]
  simp only [logInternal]
  cases hline : formatText convert (chars start ++ cString text) [] with
  | none => rw [vsnprintf, hagain, hline, Option.map_none, Option.map_none, Option.map_none]
  | some line =>
    have hle := length_formatRest_le hline
    rw [List.length_append] at hle
    rw [← hagain] at hline
    obtain ⟨filled, hfilled, hstring⟩ := cString_vsnprintf inner.bytes hline
    rw [inner.length_bytes, List.take_of_length_le (by omega)] at hstring
    have hself : cString (timestamp now ++ cString line) = timestamp now ++ cString line := by
      rw [cString_eq_self_iff, List.mem_append, not_or]
      exact ⟨zero_notMem_timestamp now, zero_notMem_cString⟩
    rw [hfilled, Option.map_some, Option.map_some, hstring, hself]

/-- The second formatting is defined if and only if every percent sign of what fits the first
buffer is followed by one more. -/
theorem logPrefixed_isSome_iff (hstart : 0 ∉ chars start) (hpercent : percent ∉ chars start)
    (htext : formatText convert (cString format) arguments = some text) :
    (logPrefixed convert start now buffer inner (some written) format arguments).isSome ↔
      percentsDoubled (cString (text.take (logBufferSize - 1))) = true := by
  obtain ⟨again, hagain, heq⟩ :=
    logPrefixed_eq_logInternal now buffer inner written hstart htext
  rw [heq]
  simp only [logInternal, vsnprintf, Option.isSome_map, hagain]
  rw [formatText_append hpercent, Option.isSome_map, formatText_isSome_iff]

/-- The line is written as it is meant if and only if formatting the text once more changes
nothing. -/
theorem logPrefixed_verbatim_iff (hstart : 0 ∉ chars start) (hpercent : percent ∉ chars start)
    (htext : formatText convert (cString format) arguments = some text)
    (hfits : (chars start).length + text.length < logBufferSize) :
    logPrefixed convert start now buffer inner (some written) format arguments =
        some (some (written ++ logLine start now text)) ↔ percent ∉ text ∧ 0 ∉ text := by
  rw [logPrefixed_eq hstart htext hfits]
  constructor
  · intro h
    obtain ⟨line, hline, hwritten⟩ := Option.map_eq_some_iff.mp h
    have hself : cString line = chars start ++ text :=
      List.append_cancel_left (List.append_cancel_left (Option.some.inj hwritten))
    -- nothing may have been lost on the way
    have hlength := congrArg List.length hself
    have hcut : (cString line).length ≤ line.length := strlen_le_length line
    have hagain := length_formatRest_le hline
    have hshort : (cString text).length ≤ text.length := strlen_le_length text
    rw [List.length_append] at hlength hagain
    have hwhole : cString text = text := (List.takeWhile_prefix _).eq_of_length (by
      change (cString text).length = _
      omega)
    rw [hwhole] at hline hagain
    have hnone : percent ∉ chars start ++ text := by
      intro hmem
      have hlt := length_formatText_lt hline hmem
      rw [List.length_append] at hlt
      omega
    exact ⟨fun hmem => hnone (List.mem_append_right _ hmem), cString_eq_self_iff.mp hwhole⟩
  · rintro ⟨hnone, hzero⟩
    have hclean : percent ∉ chars start ++ text := by
      rw [List.mem_append, not_or]
      exact ⟨hpercent, hnone⟩
    have hself : cString (chars start ++ text) = chars start ++ text := by
      rw [cString_eq_self_iff, List.mem_append, not_or]
      exact ⟨hstart, hzero⟩
    rw [cString_eq_self_iff.mpr hzero, formatText_of_notMem hclean, Option.map_some, hself, logLine]

/-- What `log_dev` and `log_err` write, of a text that fits the buffers with its prefix, is the
timestamp, the prefix and the text if and only if the text has no percent sign and no zero byte.
Otherwise something of it is missing, or the second formatting is not defined. -/
theorem log_verbatim_iff (convert : List UInt8 → List A → Option (List UInt8))
    (now : List UInt8) (buffer inner : CharArray logBufferSize) (written format : List UInt8)
    (arguments : List A) (text : List UInt8)
    (htext : formatText convert (cString format) arguments = some text)
    (hfits : 7 + text.length < logBufferSize) :
    (logDev convert now buffer inner (some written) format arguments =
        some (some (written ++ logLine "Debug: " now text)) ↔ percent ∉ text ∧ 0 ∉ text) ∧
      (logErr convert now buffer inner (some written) format arguments =
        some (some (written ++ logLine "Error: " now text)) ↔ percent ∉ text ∧ 0 ∉ text) :=
  ⟨logPrefixed_verbatim_iff (by decide +kernel) (by decide +kernel) htext hfits,
    logPrefixed_verbatim_iff (by decide +kernel) (by decide +kernel) htext hfits⟩

end Logging

/-! ## What is logged -/

/-- The arguments that the library passes: an `int`, or a pointer to a string. -/
inductive LogArgument
  | int (i : ℤ)
  | string (memory : List UInt8)

/-- The conversions that the library uses, `%d` and `%s`. -/
def convertArgument : List UInt8 → List LogArgument → Option (List UInt8)
  | [100], [.int i] => some (chars (toString i))
  | [115], [.string memory] => some (cString memory)
  | _, _ => none

/-- `%s` stands for the string in the memory. -/
theorem formatText_string {before after : List UInt8} (hbefore : percent ∉ before)
    (hafter : percent ∉ after) (memory : List UInt8) :
    formatText convertArgument (before ++ percent :: 115 :: after) [.string memory] =
      some (before ++ (cString memory ++ after)) := by
  rw [formatText_append hbefore, formatText_directive (by decide) (by decide +kernel),
    formatText_of_notMem hafter]
  rfl

/-- What a call of `log_dev` finds: the file, if it is open, what the clock says, and what its
buffers held before. -/
structure LogInput where
  logfile : Option (List UInt8)
  now : List UInt8
  buffer : CharArray logBufferSize
  inner : CharArray logBufferSize

namespace LogInput

variable (log : LogInput)

/-- `log_dev(format, arguments)` is defined. -/
def defined (format : List UInt8) (arguments : List LogArgument) : Bool :=
  (logDev convertArgument log.now log.buffer log.inner log.logfile format arguments).isSome

/-- The log is not open, or the text, as much of it as fits the buffer, asks for no argument: each
percent sign is followed by one more. -/
def Bears (text : List UInt8) : Prop :=
  log.logfile = none ∨ percentsDoubled (text.take (logBufferSize - 1))

instance (text : List UInt8) : Decidable (log.Bears text) := by
  unfold Bears
  infer_instance

variable {log}

/-- A line is logged if the log bears its text. -/
theorem defined_iff {format text : List UInt8} {arguments : List LogArgument}
    (htext : formatText convertArgument (cString format) arguments = some text)
    (hzero : 0 ∉ text) : log.defined format arguments ↔ log.Bears text := by
  unfold defined Bears
  cases log.logfile with
  | none => simp [logDev, logPrefixed]
  | some written =>
    have hkept : 0 ∉ text.take (logBufferSize - 1) := fun hmem => hzero (List.mem_of_mem_take hmem)
    rw [logDev, logPrefixed_isSome_iff (by decide +kernel) (by decide +kernel) htext,
      cString_eq_self_iff.mpr hkept]
    simp

/-- So it is for a line with a string in it. -/
theorem defined_string_iff {format before after memory : List UInt8}
    (hformat : cString format = before ++ percent :: 115 :: after)
    (hbefore : percent ∉ before ∧ 0 ∉ before) (hafter : percent ∉ after ∧ 0 ∉ after) :
    log.defined format [.string memory] ↔ log.Bears (before ++ (cString memory ++ after)) := by
  refine defined_iff ?_ ?_
  · rw [hformat]
    exact formatText_string hbefore.1 hafter.1 memory
  · simp [hbefore.2, hafter.2, zero_notMem_cString]

end LogInput

/-- What `KVGetterImpl::GetValue` passes to `log_dev`, for the name it returns. -/
def getValueFormat : List UInt8 := chars "KVGetterImpl::GetValue return %s\n"

/-- The text of it. -/
def getValueText (name : List UInt8) : List UInt8 :=
  chars "KVGetterImpl::GetValue return " ++ (cString name ++ chars "\n")

theorem formatText_getValue (name : List UInt8) :
    formatText convertArgument (cString getValueFormat) [.string (cStr name)] =
      some (getValueText name) := by
  have hformat : cString getValueFormat =
      chars "KVGetterImpl::GetValue return " ++ percent :: 115 :: chars "\n" := by decide +kernel
  rw [hformat, formatText_string (by decide +kernel) (by decide +kernel), cString_cStr,
    getValueText]

/-- `GetValue` logs a name that fits if and only if there is no percent sign in it. -/
theorem getValue_logged_iff (now name written : List UInt8)
    (buffer inner : CharArray logBufferSize)
    (hfits : 7 + (getValueText name).length < logBufferSize) :
    logDev convertArgument now buffer inner (some written) getValueFormat [.string (cStr name)] =
        some (some (written ++ logLine "Debug: " now (getValueText name))) ↔
      percent ∉ cString name := by
  have hbefore : percent ∉ chars "KVGetterImpl::GetValue return " ∧
      0 ∉ chars "KVGetterImpl::GetValue return " := by decide +kernel
  have hend : percent ∉ chars "\n" ∧ 0 ∉ chars "\n" := by decide +kernel
  have hzero : 0 ∉ cString name := zero_notMem_cString
  have hroom : (chars "Debug: ").length + (getValueText name).length < logBufferSize := hfits
  rw [logDev, logPrefixed_verbatim_iff (by decide +kernel) (by decide +kernel)
    (formatText_getValue name) hroom, getValueText]
  simp only [List.mem_append, not_or, hbefore, hend, hzero, not_false_eq_true, true_and, and_true]

theorem log_verbatim_iff_ada :
    logErr convertArgument [] (.bzero _) (.bzero _) (some []) getValueFormat
        [.string (chars "ada")] =
      some (some (logLine "Error: " [] (chars "KVGetterImpl::GetValue return ada\n"))) := by
  have h := log_verbatim_iff convertArgument [] (.bzero _) (.bzero _) [] getValueFormat
    [.string (chars "ada")] (chars "KVGetterImpl::GetValue return ada\n") (by decide +kernel)
    (by decide +kernel)
  exact h.2.mpr (by decide +kernel)

/-- The name `%s` is stored and read again. It is formatted as it should be, and then formatted
once more, where it asks for an argument that nobody passed. -/
theorem name_interpreted :
    let text := chars "KVGetterImpl::GetValue return %s\n"
    formatText convertArgument (cString getValueFormat) [.string (chars "%s")] = some text ∧
      7 + text.length < logBufferSize ∧
      ∀ now buffer inner written, logDev convertArgument now buffer inner (some written)
        getValueFormat [.string (chars "%s")] = none := by
  have htext : formatText convertArgument (cString getValueFormat) [.string (chars "%s")] =
      some (chars "KVGetterImpl::GetValue return %s\n") := by decide +kernel
  refine ⟨htext, by decide +kernel, fun now buffer inner written => ?_⟩
  have hagain : formatText convertArgument
      (chars "Debug: " ++ cString (chars "KVGetterImpl::GetValue return %s\n")) [] = none := by
    decide +kernel
  rw [logDev, logPrefixed_eq (by decide +kernel) htext (by decide +kernel), hagain, Option.map_none]

end DreamboatRpc.Common
