import Mathlib

/-!
# The ISO 8601 sanitizer

`pseudo_time.cc` rewrites an ISO 8601 string into the one form boost's parser reads
(`sanitize::iso8601`): the date (`sanitize::date`) as `YYYY-MM-DD`, `YYYY-DDD` or `YYYY-Www-D`,
the time (`sanitize::time`) as `hh:mm:ss.fff`, and the offset (`sanitize::tz`) as `±hh:mm`.  A
hand-written scanner reads the input: `mandatory_digits` copies digits and throws on anything
else, `optional_char` consumes a separator if it is there and by default writes it anyway.

A string is a `List Char`, and an error is the `datum_exc_t` the code throws, kept as data
(`SanitizeError`) with the text it prints (`SanitizeError.message`).
-/

namespace RethinkDB
namespace Sanitize

/-- The errors `rcheck_datum` throws in `sanitize`, each with the strings it prints. -/
inductive SanitizeError where
  | truncated (s : List Char)
  | notDigit (s : List Char) (c : Char)
  | hyphens (s : List Char)
  | dateGarbage (garbage s : List Char)
  | colons (s : List Char)
  | timeGarbage (garbage s : List Char)
  | invalidOffset (s : List Char)
  | noSign (s : List Char)
  | tzGarbage (garbage s : List Char)
  | hoursRange (s : List Char)
  | minutesRange (s : List Char)
  /-- `r_sanity_check(out.size() == 6)` in `tz`. -/
  | sanityCheck
  deriving DecidableEq, Repr

/-- The text of each error, as `strprintf` builds it. -/
def SanitizeError.message : SanitizeError → String
  | .truncated s => "Truncated date string `" ++ String.ofList s ++ "`."
  | .notDigit s c =>
      "Invalid date string `" ++ String.ofList s ++ "` (got `" ++ String.singleton c ++
        "` but expected a digit)."
  | .hyphens s => "Date string `" ++ String.ofList s ++ "` must have 0 or 2 hyphens."
  | .dateGarbage garbage s =>
      "Garbage characters `" ++ String.ofList garbage ++ "` at end of date string `" ++
        String.ofList s ++ "`."
  | .colons s => "Time string `" ++ String.ofList s ++ "` must have 0 or 2 colons."
  | .timeGarbage garbage s =>
      "Garbage characters `" ++ String.ofList garbage ++ "` at end of time string `" ++
        String.ofList s ++ "`."
  | .invalidOffset s => "`" ++ String.ofList s ++ "` is not a valid time offset."
  | .noSign s => "Timezone `" ++ String.ofList s ++ "` does not start with `-` or `+`."
  | .tzGarbage garbage s =>
      "Garbage characters `" ++ String.ofList garbage ++ "` at end of timezone string `" ++
        String.ofList s ++ "`."
  | .hoursRange s => "Hours out of range in `" ++ String.ofList s ++ "`."
  | .minutesRange s => "Minutes out of range in `" ++ String.ofList s ++ "`."
  | .sanityCheck => "Sanity check failed: out.size() == 6"

/-- `date_format_t`. -/
inductive DateFormat where
  | unset
  | monthDay
  | weekcount
  | daycount
  deriving DecidableEq, Repr

/-- The scanner's state: the index `*p_at` and the output `*p_out`. -/
structure Scan where
  position : Nat
  out : List Char
  deriving DecidableEq, Repr

def isDigit (c : Char) : Bool := '0' ≤ c && c ≤ '9'

/-- `mandatory_digits`: `n` digits from `*p_at` on, copied to the output unless `p_out` is
`NULL` (`copy = false`). -/
def mandatoryDigits (s : List Char) (copy : Bool) : Nat → Scan → Except SanitizeError Scan
  | 0, scan => .ok scan
  | n + 1, scan =>
      match s[scan.position]? with
      | none => .error (.truncated s)
      | some c =>
          if isDigit c then
            mandatoryDigits s copy n ⟨scan.position + 1, if copy then scan.out ++ [c] else scan.out⟩
          else .error (.notDigit s c)

/-- `optional_char_default_behavior_t`: `INCLUDE` writes the character even when it is
absent. -/
inductive DefaultBehavior where
  | includes
  | excludes
  deriving DecidableEq, Repr

/-- `optional_char`: whether `c` stood at `*p_at`, which it then consumes and writes. -/
def optionalChar (s : List Char) (c : Char) (behavior : DefaultBehavior) (scan : Scan) :
    Bool × Scan :=
  if s[scan.position]? = some c then (true, ⟨scan.position + 1, scan.out ++ [c]⟩)
  else
    match behavior with
    | .includes => (false, ⟨scan.position, scan.out ++ [c]⟩)
    | .excludes => (false, scan)

/-- The check every branch of `date` ends with. -/
def endOfDate (s : List Char) (scan : Scan) (format : DateFormat) :
    Except SanitizeError (List Char × DateFormat) :=
  if scan.position = s.length then .ok (scan.out, format)
  else .error (.dateGarbage (s.drop scan.position) s)

/-- `sanitize::date`, with the format it writes to `*df_out`. -/
def date (s : List Char) : Except SanitizeError (List Char × DateFormat) := do
  let scan ← mandatoryDigits s true 4 ⟨0, []⟩
  if scan.position = s.length then pure (scan.out ++ "-01-01".toList, .monthDay)
  else
    -- `YYYY-MM` and `YYYYMMDD` are dates, `YYYYMM` is none
    let (firstHyphen, scan) := optionalChar s '-' .includes scan
    let (week, scan) := optionalChar s 'W' .excludes scan
    if week then do
      let scan ← mandatoryDigits s true 2 scan
      if scan.position = s.length then pure (scan.out ++ "-1".toList, .weekcount)
      else do
        let scan ← mandatoryDigits s true 1 (optionalChar s '-' .includes scan).2
        endOfDate s scan .weekcount
    else if s.length - scan.position = 3 then do
      let scan ← mandatoryDigits s true 3 scan
      endOfDate s scan .daycount
    else do
      let scan ← mandatoryDigits s true 2 scan
      if firstHyphen && scan.position = s.length then pure (scan.out ++ "-01".toList, .monthDay)
      else
        let (secondHyphen, scan) := optionalChar s '-' .includes scan
        if firstHyphen ≠ secondHyphen then .error (.hyphens s)
        else do
          let scan ← mandatoryDigits s true 2 scan
          endOfDate s scan .monthDay

/-- The first loop of the fraction: `while (at < s.size() && read < 3)`, one digit a turn, with
`budget = 3 - read`; it returns how many it read. -/
def fractionDigits (s : List Char) : Nat → Scan → Except SanitizeError (Nat × Scan)
  | 0, scan => .ok (0, scan)
  | budget + 1, scan =>
      if scan.position < s.length then do
        let scan ← mandatoryDigits s true 1 scan
        let (read, scan) ← fractionDigits s budget scan
        return (read + 1, scan)
      else .ok (0, scan)

/-- The second loop: `while (at < s.size()) mandatory_digits(s, 1, &at, NULL)`, with `fuel`
turns; each reads a byte, so `s.length` turns are enough. -/
def skipDigits (s : List Char) : Nat → Scan → Except SanitizeError Scan
  | 0, scan => .ok scan
  | fuel + 1, scan =>
      if scan.position < s.length then do
        let scan ← mandatoryDigits s false 1 scan
        skipDigits s fuel scan
      else .ok scan

/-- The fraction after `ss`: at most three digits kept, the rest checked and dropped, and
zeros up to three. -/
def fraction (s : List Char) (scan : Scan) : Except SanitizeError Scan :=
  let (dot, scan) := optionalChar s '.' .includes scan
  if dot then do
    let (read, scan) ← fractionDigits s 3 scan
    let scan ← skipDigits s s.length scan
    pure { scan with out := scan.out ++ List.replicate (3 - read) '0' }
  else .ok { scan with out := scan.out ++ "000".toList }

/-- `sanitize::time`. -/
def time (s : List Char) : Except SanitizeError (List Char) := do
  let scan ← mandatoryDigits s true 2 ⟨0, []⟩
  if scan.position = s.length then pure (scan.out ++ ":00:00.000".toList)
  else do
    let (firstColon, scan) := optionalChar s ':' .includes scan
    let scan ← mandatoryDigits s true 2 scan
    if scan.position = s.length then pure (scan.out ++ ":00.000".toList)
    else
      let (secondColon, scan) := optionalChar s ':' .includes scan
      if firstColon ≠ secondColon then .error (.colons s)
      else do
        let scan ← mandatoryDigits s true 2 scan
        let scan ← fraction s scan
        if scan.position = s.length then pure scan.out
        else .error (.timeGarbage (s.drop scan.position) s)

/-- `hours_valid`: `00` to `24`. -/
def hoursValid (l r : Char) : Bool :=
  ((l == '0' || l == '1') && ('0' ≤ r && r ≤ '9')) || (l == '2' && ('0' ≤ r && r ≤ '4'))

/-- `minutes_valid`: `00` to `59`. -/
def minutesValid (l r : Char) : Bool := ('0' ≤ l && l ≤ '5') && ('0' ≤ r && r ≤ '9')

/-- The range checks at the end of `tz`, on the six characters `±hh:mm` it wrote. -/
def checkOffset (s : List Char) : List Char → Except SanitizeError (List Char)
  | [sign, h1, h2, colon, m1, m2] =>
      if ¬hoursValid h1 h2 then .error (.hoursRange s)
      else if ¬minutesValid m1 m2 then .error (.minutesRange s)
      else .ok [sign, h1, h2, colon, m1, m2]
  | _ => .error .sanityCheck

/-- `sanitize::tz`. -/
def tz (s : List Char) : Except SanitizeError (List Char) :=
  if s = "-00".toList ∨ s = "-00:00".toList then .error (.invalidOffset s)
  else if s = ['Z'] then .ok "+00:00".toList
  else
    let (minus, scan) := optionalChar s '-' .excludes ⟨0, []⟩
    let (signPrefix, scan) := if minus then (true, scan) else optionalChar s '+' .excludes scan
    if ¬signPrefix then .error (.noSign s)
    else do
      let scan ← mandatoryDigits s true 2 scan
      -- only hours: the offset is returned before any range check
      if scan.position = s.length then pure (scan.out ++ ":00".toList)
      else do
        let scan ← mandatoryDigits s true 2 (optionalChar s ':' .includes scan).2
        if scan.position ≠ s.length then .error (.tzGarbage (s.drop scan.position) s)
        else checkOffset s scan.out

/-- `s.find(c, start)`. -/
def findFrom (s : List Char) (c : Char) (start : Nat) : Option Nat :=
  ((s.drop start).findIdx? (· == c)).map (· + start)

/-- `sanitize::iso8601`: the date before the first `T`, the time up to the first `-`, else `+`,
else `Z` after it, and the offset from there; `default_tz` where there is none. -/
def iso8601 (s defaultTz : List Char) : Except SanitizeError (List Char × DateFormat) := do
  let tloc := findFrom s 'T' 0
  let (dateS, format) ← date (match tloc with | some t => s.take t | none => s)
  match tloc with
  | none => pure (dateS ++ ['T'] ++ "00:00:00.000".toList ++ defaultTz, format)
  | some t =>
      let start := t + 1
      let signLoc := (findFrom s '-' start <|> findFrom s '+' start) <|> findFrom s 'Z' start
      let timeS ← time (match signLoc with
        | some l => (s.drop start).take (l - start)
        | none => s.drop start)
      let tzS ← match signLoc with
        | none => pure defaultTz
        | some l => tz (s.drop l)
      pure (dateS ++ ['T'] ++ timeS ++ tzS, format)

example : date "2015W01".toList = .ok ("2015-W01-1".toList, .weekcount) := by decide
example : time "1230".toList = .ok "12:30:00.000".toList := by decide
example : time "12:30:15.12345".toList = .ok "12:30:15.123".toList := by decide
example : tz "+0530".toList = .ok "+05:30".toList := by decide

/-! ## Offsets with hours only

`tz` returns as soon as the hours are read when nothing follows them, before the range checks
and with only the literal spellings `-00` and `-00:00` refused: so `+25` passes as `+25:00`,
which `tz` then refuses, and `-0000` passes as `-00:00`, which it refuses too. -/

/-- An offset of a sign and two digits passes `tz` unchecked, unless it is `-00`. -/
theorem tz_hours_only {sign h1 h2 : Char} (signed : sign = '+' ∨ sign = '-')
    (digit1 : isDigit h1 = true) (digit2 : isDigit h2 = true)
    (notNegZero : ¬(sign = '-' ∧ h1 = '0' ∧ h2 = '0')) :
    tz [sign, h1, h2] = .ok [sign, h1, h2, ':', '0', '0'] := by
  rcases signed with rfl | rfl
  · simp [tz, optionalChar, mandatoryDigits, digit1, digit2, bind, Except.bind, pure, Except.pure]
  · simp only [true_and] at notNegZero
    simp [tz, optionalChar, mandatoryDigits, digit1, digit2, bind, Except.bind, pure, Except.pure,
      notNegZero]

/-- **The sanitizer is no canonicalising validator**: every offset of hours alone passes
unchecked, and a string with the offset `-0000` passes as one with `-00:00`, which it refuses. -/
theorem sanitize_accepts_unchecked_offsets :
    (∀ sign h1 h2 : Char, (sign = '+' ∨ sign = '-') → isDigit h1 = true → isDigit h2 = true →
      ¬(sign = '-' ∧ h1 = '0' ∧ h2 = '0') → tz [sign, h1, h2] = .ok [sign, h1, h2, ':', '0', '0']) ∧
    iso8601 "2015-01-01T00:00-0000".toList [] =
      .ok ("2015-01-01T00:00:00.000-00:00".toList, .monthDay) ∧
    iso8601 "2015-01-01T00:00:00.000-00:00".toList [] = .error (.invalidOffset "-00:00".toList) :=
  ⟨fun _ _ _ signed digit1 digit2 notNegZero => tz_hours_only signed digit1 digit2 notNegZero,
    by decide, by decide⟩

theorem sanitize_accepts_plus_25 :
    tz "+25".toList = .ok "+25:00".toList ∧ tz "+25:00".toList = .error (.hoursRange "+25:00".toList) :=
  ⟨sanitize_accepts_unchecked_offsets.1 '+' '2' '5' (Or.inl rfl) rfl rfl (by decide), by decide⟩

end Sanitize
end RethinkDB
