import DreamboatRpc.CS.Bytes

/-!
# Formatted text

A format is copied up to a percent sign, which begins a directive: flags, width, precision and
length, and then the conversion. `%%` stands for a percent sign. Every other conversion takes
one argument, and one more for each `*`; what it makes of them is a parameter.

## Main definitions

* `formatText` — the text of a format and its arguments
* `vsnprintf` — a buffer after `vsnprintf`
* `percentsDoubled` — every percent sign of a text is followed by one more

## Main results

* `formatText_of_notMem` — a format without percent signs is copied
* `length_formatText_lt` — without arguments, any other format has a shorter text
* `formatText_isSome_iff` — and it has one if and only if its percent signs are doubled
* `cString_vsnprintf` — the string in the buffer: as much of the text as fits
-/

namespace CS

/-- `%` -/
def percent : UInt8 := 37

/-- What may stand between the percent sign and the conversion: flags, width, precision and
length. -/
def isModifier (c : UInt8) : Bool := "-+ #0123456789.*hjlztL".toUTF8.data.contains c

/-- The number of arguments of a directive with these modifiers: one for each `*`, and one. -/
def directiveArguments (modifiers : List UInt8) : ℕ := modifiers.count 42 + 1

variable {A : Type*} (convert : List UInt8 → List A → Option (List UInt8))

/-- The text of the rest of a format, of which the modifiers of a directive may have been read.
`none` if a directive is none, or it takes an argument that there is not. -/
def formatRest : Option (List UInt8) → List UInt8 → List A → Option (List UInt8)
  | none, [], _ => some []
  | some _, [], _ => none
  | none, c :: format, arguments =>
    if c = percent then formatRest (some []) format arguments
    else (formatRest none format arguments).map fun text => c :: text
  | some modifiers, c :: format, arguments =>
    if c = percent then
      if modifiers = [] then (formatRest none format arguments).map fun text => c :: text else none
    else if isModifier c then formatRest (some (modifiers ++ [c])) format arguments
    else if arguments.length < directiveArguments modifiers then none
    else
      (convert (modifiers ++ [c]) (arguments.take (directiveArguments modifiers))).bind fun first =>
        (formatRest none format (arguments.drop (directiveArguments modifiers))).map fun text =>
          first ++ text

/-- The text of a format and its arguments. -/
def formatText (format : List UInt8) (arguments : List A) : Option (List UInt8) :=
  formatRest convert none format arguments

/-- `vsnprintf(buffer, sizeof(buffer), format, args)`: what the buffer holds afterwards, the text
or as much of it as there is room for, and a terminator. -/
def vsnprintf (buffer format : List UInt8) (arguments : List A) : Option (List UInt8) :=
  (formatText convert (cString format) arguments).map fun text =>
    let kept := text.take (buffer.length - 1)
    memcpy buffer (cStr kept) (kept.length + 1)

/-- Every percent sign is followed by one more. -/
def percentsDoubled : List UInt8 → Bool
  | [] => true
  | [c] => c ≠ percent
  | c :: d :: text =>
    if c = percent then d = percent && percentsDoubled text else percentsDoubled (d :: text)

variable {convert} {format out text : List UInt8} {arguments : List A}

/-- What stands before the first percent sign is copied, and no argument is taken. -/
theorem formatText_append {before : List UInt8} (h : percent ∉ before) (format : List UInt8)
    (arguments : List A) : formatText convert (before ++ format) arguments =
      (formatText convert format arguments).map fun text => before ++ text := by
  induction before with
  | nil => simp
  | cons c before ih =>
    rw [List.mem_cons, not_or] at h
    rw [List.cons_append, formatText, formatRest, if_neg (Ne.symm h.1), ← formatText, ih h.2,
      Option.map_map]
    rfl

/-- A format without percent signs is copied. -/
theorem formatText_of_notMem (h : percent ∉ format) (arguments : List A) :
    formatText convert format arguments = some format := by
  have hcopied : formatText convert (format ++ []) arguments = _ :=
    formatText_append h [] arguments
  rw [List.append_nil] at hcopied
  rw [hcopied, show formatText convert [] arguments = some [] from rfl, Option.map_some,
    List.append_nil]

/-- A conversion without modifiers takes one argument. -/
theorem formatText_directive {c : UInt8} (hpercent : c ≠ percent) (hc : isModifier c = false)
    (format : List UInt8) (a : A) (arguments : List A) :
    formatText convert (percent :: c :: format) (a :: arguments) =
      (convert [c] [a]).bind fun first =>
        (formatText convert format arguments).map fun text => first ++ text := by
  have hone : ¬ (a :: arguments).length < directiveArguments [] := by
    simp [directiveArguments]
  rw [formatText, formatRest, if_pos rfl, formatRest, if_neg hpercent, hc,
    if_neg Bool.false_ne_true, if_neg hone]
  rfl

/-- Without arguments the text is not longer than the format. -/
theorem length_formatRest_le {modifiers : Option (List UInt8)}
    (h : formatRest convert modifiers format [] = some out) : out.length ≤ format.length := by
  induction format generalizing modifiers out with
  | nil =>
    cases modifiers with
    | none =>
      cases h
      rfl
    | some modifiers => cases h
  | cons c format ih =>
    cases modifiers with
    | none =>
      rw [formatRest] at h
      split at h
      · exact (ih h).trans (Nat.le_succ _)
      · obtain ⟨text, htext, rfl⟩ := Option.map_eq_some_iff.mp h
        exact Nat.succ_le_succ (ih htext)
    | some modifiers =>
      rw [formatRest] at h
      split at h
      · split at h
        · obtain ⟨text, htext, rfl⟩ := Option.map_eq_some_iff.mp h
          exact Nat.succ_le_succ (ih htext)
        · cases h
      · split at h
        · exact (ih h).trans (Nat.le_succ _)
        · -- a conversion takes an argument at least
          have hmissing : ([] : List A).length < directiveArguments modifiers := Nat.succ_pos _
          rw [if_pos hmissing] at h
          cases h

/-- And it is shorter if there is a directive in it. -/
theorem length_formatText_lt (h : formatText convert format [] = some out)
    (hmem : percent ∈ format) : out.length < format.length := by
  induction format generalizing out with
  | nil => cases hmem
  | cons c format ih =>
    rw [formatText, formatRest] at h
    split at h
    · exact Nat.lt_succ_of_le (length_formatRest_le h)
    · rename_i hc
      obtain ⟨text, htext, rfl⟩ := Option.map_eq_some_iff.mp h
      exact Nat.succ_lt_succ (ih htext ((List.mem_cons.mp hmem).resolve_left (Ne.symm hc)))

/-- Without arguments, a directive with modifiers has no text. -/
theorem formatRest_modifiers {modifiers : List UInt8} (h : modifiers ≠ []) :
    formatRest convert (some modifiers) format [] = none := by
  induction format generalizing modifiers with
  | nil => rfl
  | cons c format ih =>
    have hmissing : ([] : List A).length < directiveArguments modifiers := Nat.succ_pos _
    rw [formatRest, if_neg h, if_pos hmissing, ih (by simp), ite_self, ite_self]

/-- Without arguments, a format has a text if and only if its percent signs are doubled. -/
theorem formatText_isSome_iff :
    (formatText convert format []).isSome ↔ percentsDoubled format = true := by
  fun_induction percentsDoubled format with
  | case1 => simp [formatText, formatRest]
  | case2 c =>
    by_cases hc : c = percent <;> simp [formatText, formatRest, hc]
  | case3 d format ih =>
    -- the second character either ends the directive or begins a longer one
    by_cases hd : d = percent
    · simp only [formatText, formatRest, hd, if_true, Option.isSome_map]
      simpa [formatText] using ih
    · have hmissing : ([] : List A).length < directiveArguments [] := Nat.succ_pos _
      rw [formatText, formatRest, if_pos rfl, formatRest, if_neg hd, if_pos hmissing,
        formatRest_modifiers (by simp), ite_self]
      simp [hd]
  | case4 c d format hc ih =>
    rw [formatText, formatRest, if_neg hc, Option.isSome_map]
    exact ih

/-- The string in the buffer is as much of the text as there is room for, up to its first
zero. -/
theorem cString_vsnprintf (buffer : List UInt8)
    (h : formatText convert (cString format) arguments = some text) :
    ∃ filled, vsnprintf convert buffer format arguments = some filled ∧
      cString filled = cString (text.take (buffer.length - 1)) := by
  refine ⟨_, by rw [vsnprintf, h, Option.map_some], ?_⟩
  have hlength : (cStr (text.take (buffer.length - 1))).length ≤
      (text.take (buffer.length - 1)).length + 1 := by simp [cStr]
  simp only [memcpy]
  rw [List.take_of_length_le hlength, cStr, List.append_assoc, List.singleton_append,
    cString_append_zero]

end CS
