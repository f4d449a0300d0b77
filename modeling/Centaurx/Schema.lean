import Centaurx.Lib.GoString

namespace Centaurx
open Go

abbrev UserID := GoString
abbrev TabID := GoString
abbrev TabName := GoString
abbrev SessionID := GoString
abbrev RepoName := GoString
abbrev ModelID := GoString
abbrev ModelReasoningEffort := GoString
abbrev ThemeName := GoString

inductive TabStatus
  | idle | running | stopped
  deriving DecidableEq, Repr

/-- Token usage of the last turn. -/
structure TurnUsage where
  inputTokens : Int
  cachedInputTokens : Int
  outputTokens : Int
  deriving DecidableEq, Repr

inductive SchemaError
  | invalidUser | invalidRepo | tabNotFound | invalidModel | invalidModelReasoningEffort
  | emptyPrompt | runnerUnavailable | tabBusy | themeRequired | tabNameMaxTooSmall
  deriving DecidableEq, Repr

/-- The tables of Go's `unicode` package that the normalisers read. -/
structure Unicode where
  isLetter : ℕ → Bool
  isDigit : ℕ → Bool
  toLower : GoString → GoString

/-- The tables on the ASCII range. -/
def Unicode.ascii : Unicode where
  isLetter r := (0x61 ≤ r && r ≤ 0x7A) || (0x41 ≤ r && r ≤ 0x5A)
  isDigit r := 0x30 ≤ r && r ≤ 0x39
  toLower s := s.map (fun b => if 0x41 ≤ b && b ≤ 0x5A then b + 0x20 else b)

/-- Tables that agree with Go's on the ASCII range. `strings.ToLower` makes no ASCII character
out of another one except `i` and `k`, so it lets every ASCII text without these two be found
at the start of a string as its own lower case. -/
structure Unicode.Lawful (uni : Unicode) : Prop where
  isLetter : ∀ r, r < 0x80 → uni.isLetter r = Unicode.ascii.isLetter r
  isDigit : ∀ r, r < 0x80 → uni.isDigit r = Unicode.ascii.isDigit r
  toLower : ∀ s : GoString, (∀ b ∈ s, b < 0x80) → uni.toLower s = Unicode.ascii.toLower s
  toLower_start : ∀ s text : GoString, (∀ b ∈ text, b < 0x80 ∧ b ≠ 0x69 ∧ b ≠ 0x6B) →
    (text.isPrefixOf (uni.toLower s) = text.isPrefixOf (Unicode.ascii.toLower s))

theorem Unicode.ascii_lawful : Unicode.ascii.Lawful :=
  ⟨fun _ _ => rfl, fun _ _ => rfl, fun _ _ => rfl, fun _ _ _ => rfl⟩

/-- `ValidateUserID`. A user id of the allowed runes has no white space to trim, so the
`TrimSpace` comparison of the source rejects nothing more; it is kept as written. -/
def validateUserID (userID : UserID) : Bool :=
  userID ≠ [] && trimSpace userID = userID &&
    (runes userID).all fun r =>
      (0x61 ≤ r.1 && r.1 ≤ 0x7A) || (0x30 ≤ r.1 && r.1 ≤ 0x39) ||
        r.1 = 0x2E || r.1 = 0x5F || r.1 = 0x2D

/-- `NormalizeModelID`. -/
def normalizeModelID (uni : Unicode) (model : GoString) : Except SchemaError ModelID :=
  let trimmed := trimSpace model
  if trimmed = [] then .error .invalidModel
  else if (runes trimmed).all fun r =>
      r.1 = 0x2E || r.1 = 0x5F || r.1 = 0x2D || uni.isLetter r.1 || uni.isDigit r.1 then
    .ok trimmed
  else .error .invalidModel

def modelReasoningLow : ModelReasoningEffort := lit "low"
def modelReasoningMedium : ModelReasoningEffort := lit "medium"
def modelReasoningHigh : ModelReasoningEffort := lit "high"
def modelReasoningXHigh : ModelReasoningEffort := lit "xhigh"
def defaultModelReasoningEffort : ModelReasoningEffort := modelReasoningMedium

/-- `NormalizeModelReasoningEffort`. -/
def normalizeModelReasoningEffort (uni : Unicode) (value : GoString) :
    Except SchemaError ModelReasoningEffort :=
  let trimmed := trimSpace (uni.toLower value)
  if trimmed = [] then .error .invalidModelReasoningEffort
  else if trimmed ∈
      [modelReasoningLow, modelReasoningMedium, modelReasoningHigh, modelReasoningXHigh] then
    .ok trimmed
  else .error .invalidModelReasoningEffort

theorem defaultModelReasoningEffort_not_blank : blank defaultModelReasoningEffort = false := by
  decide

/-- The fields of `ServiceConfig` that the tab and buffer code reads. -/
structure ServiceConfig where
  defaultModel : ModelID
  defaultTheme : ThemeName
  tabNameMax : Int
  tabNameSuffix : GoString
  bufferMaxLines : Int
  deriving DecidableEq

/-- A configuration that `NormalizeServiceConfig` has accepted: the service holds no other. -/
structure Config extends ServiceConfig where
  defaultModel_ne : defaultModel ≠ []
  defaultTheme_ne : defaultTheme ≠ []
  bufferMaxLines_pos : 0 < bufferMaxLines
  suffix_lt : tabNameSuffix.length < tabNameMax

def defaultTheme : ThemeName := lit "outrun"
def defaultBufferMaxLines : Int := 5000

/-- `NormalizeServiceConfig`: defaults for the empty fields, then the one check. -/
def normalizeServiceConfig (cfg : ServiceConfig) : Except SchemaError Config :=
  let max := if cfg.tabNameMax ≤ 0 then 10 else cfg.tabNameMax
  let suffix := if cfg.tabNameSuffix = [] then lit "$" else cfg.tabNameSuffix
  if h : max ≤ suffix.length then .error .tabNameMaxTooSmall
  else .ok
    { defaultModel := if cfg.defaultModel = [] then lit "gpt-5.2-codex" else cfg.defaultModel
      defaultTheme := if cfg.defaultTheme = [] then defaultTheme else cfg.defaultTheme
      tabNameMax := max
      tabNameSuffix := suffix
      bufferMaxLines :=
        if cfg.bufferMaxLines ≤ 0 then defaultBufferMaxLines else cfg.bufferMaxLines
      defaultModel_ne := by
        split
        · decide
        · assumption
      defaultTheme_ne := by
        split
        · decide
        · assumption
      bufferMaxLines_pos := by
        split
        · decide
        · omega
      suffix_lt := by omega }

/-- The configuration of a service started without settings. -/
def stockConfig : Config where
  defaultModel := lit "gpt-5.2-codex"
  defaultTheme := defaultTheme
  tabNameMax := 10
  tabNameSuffix := lit "$"
  bufferMaxLines := defaultBufferMaxLines
  defaultModel_ne := by decide
  defaultTheme_ne := by decide
  bufferMaxLines_pos := by decide
  suffix_lt := by decide

example : normalizeServiceConfig ⟨[], [], 0, [], 0⟩ = .ok stockConfig := rfl

end Centaurx
