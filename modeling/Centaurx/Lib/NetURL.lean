import Centaurx.Lib.Words
import Mathlib.Data.List.TakeWhile
import Mathlib.Tactic.IntervalCases

namespace Centaurx.NetURL
open Go List

inductive Encoding
  | path | host | zone | userPassword | fragment
  deriving DecidableEq

def letter (c : UInt8) : Bool := between 0x61 0x7A c || between 0x41 0x5A c
def digit (c : UInt8) : Bool := between 0x30 0x39 c

/-- `shouldEscape`, in the modes that are used here. -/
def shouldEscape (c : UInt8) (mode : Encoding) : Bool :=
  if letter c || digit c then false
  else if (mode = .host || mode = .zone) && c ∈ lit "!$&'()*+,;=:[]<>\"" then false
  else if c ∈ lit "-_.~" then false
  else if mode = .path && c ∈ lit "$&+,/:;=?@" then c = 0x3F
  else if mode = .userPassword && c ∈ lit "$&+,/:;=?@" then c ∈ lit "@/?:"
  else if mode = .fragment && c ∈ lit "$&+,/:;=?@" then false
  else if mode = .fragment && c ∈ lit "!()*" then false
  else true

def ishex (c : UInt8) : Bool := digit c || between 0x61 0x66 c || between 0x41 0x46 c

def unhex (c : UInt8) : ℕ :=
  if digit c then c.toNat - 0x30
  else if between 0x61 0x66 c then c.toNat - 0x61 + 10
  else if between 0x41 0x46 c then c.toNat - 0x41 + 10
  else 0

/-- The escapes that `unescape` refuses in a host or a zone. -/
def refusedEscape (mode : Encoding) (h l : UInt8) : Bool :=
  let percent := h = 0x32 && l = 0x35
  let v := UInt8.ofNat (unhex h * 16 + unhex l)
  (mode = .host && unhex h < 8 && !percent) ||
    (mode = .zone && !percent && v ≠ 0x20 && shouldEscape v .host)

def unescape (mode : Encoding) : GoString → Option GoString
  | [] => some []
  | c :: s =>
    if c = 0x25 then
      match s with
      | h :: l :: rest =>
        if ishex h && ishex l && !refusedEscape mode h l then
          (unescape mode rest).map (UInt8.ofNat (unhex h * 16 + unhex l) :: ·)
        else none
      | _ => none
    else if (mode = .host || mode = .zone) && c < 0x80 && shouldEscape c mode then none
    else (unescape mode s).map (c :: ·)

def upperhex (n : ℕ) : UInt8 := if n < 10 then UInt8.ofNat (0x30 + n) else UInt8.ofNat (0x37 + n)

def escape (mode : Encoding) (s : GoString) : GoString :=
  s.flatMap fun c =>
    if shouldEscape c mode then [0x25, upperhex (c.toNat / 16), upperhex (c.toNat % 16)] else [c]

def validEncoded (mode : Encoding) (s : GoString) : Bool :=
  s.all fun c => c ∈ lit "!$&'()*+,;=:@[]%" || !shouldEscape c mode

structure Userinfo where
  username : GoString
  password : Option GoString
  deriving DecidableEq

structure URL where
  scheme : GoString := []
  /-- The field `Opaque`. -/
  rootless : GoString := []
  user : Option Userinfo := none
  host : GoString := []
  path : GoString := []
  rawPath : GoString := []
  omitHost : Bool := false
  forceQuery : Bool := false
  rawQuery : GoString := []
  fragment : GoString := []
  rawFragment : GoString := []
  deriving DecidableEq

/-- `strings.Cut` at a byte. -/
def cut (b : UInt8) (s : GoString) : GoString × GoString :=
  (s.takeWhile (· ≠ b), (s.dropWhile (· ≠ b)).drop 1)

/-- What is before and after the last occurrence of a byte. -/
def cutLast (b : UInt8) (s : GoString) : Option (GoString × GoString) :=
  if b ∈ s then
    some (((s.reverse.dropWhile (· ≠ b)).drop 1).reverse, (s.reverse.takeWhile (· ≠ b)).reverse)
  else none

def getSchemeFrom (rawURL : GoString) : GoString → GoString → Option (GoString × GoString)
  | _, [] => some ([], rawURL)
  | acc, c :: s =>
    if letter c then getSchemeFrom rawURL (acc ++ [c]) s
    else if digit c || c ∈ lit "+-." then
      if acc = [] then some ([], rawURL) else getSchemeFrom rawURL (acc ++ [c]) s
    else if c = 0x3A then if acc = [] then none else some (acc, s)
    else some ([], rawURL)

/-- `getScheme`: the scheme, if there is one, and the rest. -/
def getScheme (rawURL : GoString) : Option (GoString × GoString) := getSchemeFrom rawURL [] rawURL

def validOptionalPort (port : GoString) : Bool :=
  match port with
  | [] => true
  | c :: s => c = 0x3A && s.all digit

/-- `parseHost`; `isIPv6` is what `netip.ParseAddr` says about a bracketed host. -/
def parseHost (isIPv6 : GoString → Bool) (host : GoString) : Option GoString :=
  match cutLast 0x5B host with
  | some (_, inner) =>
    match cutLast 0x5D host with
    | none => none
    | some (_, colonPort) =>
      if !validOptionalPort colonPort then none
      else do
        let port ← unescape .host colonPort
        let hostname := inner.take (inner.length - colonPort.length - 1)
        let zone := (range (hostname.length + 1)).find? fun i =>
          (lit "%25").isPrefixOf (hostname.drop i)
        let name ← match zone with
          | some i => do
            let hostPart ← unescape .host (hostname.take i)
            let zonePart ← unescape .zone (hostname.drop i)
            pure (hostPart ++ zonePart)
          | none => unescape .host hostname
        if isIPv6 name then pure ([0x5B] ++ name ++ [0x5D] ++ port) else none
  | none =>
    match cutLast 0x3A host with
    | some (_, port) => if validOptionalPort (0x3A :: port) then unescape .host host else none
    | none => unescape .host host

def validUserinfo (s : GoString) : Bool :=
  s.all fun c => letter c || digit c || c ∈ lit "-._:~!$&'()*+,;=%@"

def parseUserinfo (userinfo : GoString) : Option Userinfo :=
  if !validUserinfo userinfo then none
  else if 0x3A ∈ userinfo then do
    let username ← unescape .userPassword (cut 0x3A userinfo).1
    let password ← unescape .userPassword (cut 0x3A userinfo).2
    pure ⟨username, some password⟩
  else do
    let username ← unescape .userPassword userinfo
    pure ⟨username, none⟩

def parseAuthority (isIPv6 : GoString → Bool) (authority : GoString) :
    Option (Option Userinfo × GoString) :=
  match cutLast 0x40 authority with
  | none => do
    let host ← parseHost isIPv6 authority
    pure (none, host)
  | some (userinfo, hostPart) => do
    let host ← parseHost isIPv6 hostPart
    let user ← parseUserinfo userinfo
    pure (some user, host)

/-- `setPath`: the raw path is kept if it is not what `escape` would write. -/
def URL.setPath (u : URL) (p : GoString) : Option URL := do
  let path ← unescape .path p
  pure { u with path := path, rawPath := if p = escape .path path then [] else p }

def URL.setFragment (u : URL) (f : GoString) : Option URL := do
  let frag ← unescape .fragment f
  pure { u with fragment := frag, rawFragment := if f = escape .fragment frag then [] else f }

def containsCTLByte (s : GoString) : Bool := s.any fun c => c < 0x20 || c = 0x7F

/-- The parser without the fragment. -/
def parseBody (isIPv6 : GoString → Bool) (lower : GoString → GoString) (rawURL : GoString) :
    Option URL :=
  if containsCTLByte rawURL then none
  else if rawURL = lit "*" then some { path := lit "*" }
  else do
    let (scheme, rest) ← getScheme rawURL
    let forced := rest.getLast? = some 0x3F && rest.count 0x3F = 1
    let (rest, rawQuery) := if forced then (rest.dropLast, []) else cut 0x3F rest
    let u : URL := { scheme := lower scheme, forceQuery := forced, rawQuery := rawQuery }
    if rest.head? ≠ some 0x2F && scheme ≠ [] then some { u with rootless := rest }
    else if rest.head? ≠ some 0x2F && 0x3A ∈ (cut 0x2F rest).1 then none
    else if (scheme ≠ [] || !(lit "///").isPrefixOf rest) && (lit "//").isPrefixOf rest then do
      let authority := (rest.drop 2).takeWhile (· ≠ 0x2F)
      let (user, host) ← parseAuthority isIPv6 authority
      URL.setPath { u with user := user, host := host } ((rest.drop 2).dropWhile (· ≠ 0x2F))
    else URL.setPath { u with omitHost := scheme ≠ [] && rest.head? = some 0x2F } rest

/-- `url.Parse`. -/
def parse (isIPv6 : GoString → Bool) (lower : GoString → GoString) (rawURL : GoString) :
    Option URL := do
  let u ← parseBody isIPv6 lower (cut 0x23 rawURL).1
  let frag := (cut 0x23 rawURL).2
  if frag = [] then pure u else u.setFragment frag

def URL.escapedPath (u : URL) : GoString :=
  if u.rawPath ≠ [] && validEncoded .path u.rawPath && unescape .path u.rawPath = some u.path then
    u.rawPath
  else if u.path = lit "*" then lit "*"
  else escape .path u.path

def URL.escapedFragment (u : URL) : GoString :=
  if u.rawFragment ≠ [] && validEncoded .fragment u.rawFragment &&
      unescape .fragment u.rawFragment = some u.fragment then
    u.rawFragment
  else escape .fragment u.fragment

def Userinfo.string (ui : Userinfo) : GoString :=
  escape .userPassword ui.username ++
    match ui.password with
    | none => []
    | some password => 0x3A :: escape .userPassword password

/-- The authority with its slashes. -/
def URL.authority (u : URL) : GoString :=
  if u.scheme = [] && u.host = [] && u.user = none then []
  else if u.omitHost && u.host = [] && u.user = none then []
  else
    (if u.host ≠ [] || u.path ≠ [] || u.user ≠ none then lit "//" else []) ++
      (match u.user with
        | none => []
        | some ui => ui.string ++ [0x40]) ++
      escape .host u.host

/-- What stands before the query. -/
def URL.hierarchy (u : URL) : GoString :=
  let start := if u.scheme = [] then [] else u.scheme ++ [0x3A]
  if u.rootless ≠ [] then start ++ u.rootless
  else
    let start := start ++ u.authority
    let path := u.escapedPath
    let start :=
      if path ≠ [] && path.head? ≠ some 0x2F && u.host ≠ [] then start ++ [0x2F] else start
    let start := if start = [] && 0x3A ∈ (cut 0x2F path).1 then lit "./" else start
    start ++ path

/-- `URL.String`. -/
def URL.string (u : URL) : GoString :=
  u.hierarchy ++
    (if u.forceQuery || u.rawQuery ≠ [] then 0x3F :: u.rawQuery else []) ++
    (if u.fragment ≠ [] then 0x23 :: u.escapedFragment else [])

theorem scheme_isPrefix {u : URL} (hs : u.scheme ≠ []) : u.scheme <+: u.string := by
  have hh : u.scheme <+: u.hierarchy := by
    simp only [URL.hierarchy, if_neg hs]
    split_ifs <;> simp_all
  rw [URL.string, append_assoc]
  exact hh.trans (prefix_append _ _)

theorem notMem_cut (b : UInt8) (s : GoString) : b ∉ (cut b s).1 := by
  intro h
  simpa using mem_takeWhile_imp h

variable {s : GoString}

theorem cut_append {b : UInt8} (h : b ∉ s) (t : GoString) : cut b (s ++ b :: t) = (s, t) := by
  have hs : ∀ c ∈ s, decide (c ≠ b) = true := by
    intro c hc
    exact decide_eq_true fun hcb => h (hcb ▸ hc)
  rw [cut, takeWhile_append_of_pos hs, dropWhile_append_of_pos hs]
  simp

theorem cut_eq {b : UInt8} (h : b ∈ s) : s = (cut b s).1 ++ b :: (cut b s).2 := by
  induction s with
  | nil => simp at h
  | cons c s ih =>
    by_cases hc : c = b
    · simp [cut, hc]
    · have hs : b ∈ s := (mem_cons.mp h).resolve_left (Ne.symm hc)
      have := ih hs
      simp only [cut] at this ⊢
      rw [takeWhile_cons, dropWhile_cons]
      simpa [hc] using this

theorem setPath_keeps {u v : URL} {p : GoString} (h : u.setPath p = some v) :
    v.scheme = u.scheme ∧ v.rootless = u.rootless := by
  simp only [URL.setPath, Option.bind_eq_bind, Option.bind_eq_some_iff, Option.pure_def,
    Option.some.injEq] at h
  obtain ⟨path, -, rfl⟩ := h
  exact ⟨rfl, rfl⟩

theorem setFragment_keeps {u v : URL} {f : GoString} (h : u.setFragment f = some v) :
    v.scheme = u.scheme ∧ v.rootless = u.rootless := by
  simp only [URL.setFragment, Option.bind_eq_bind, Option.bind_eq_some_iff, Option.pure_def,
    Option.some.injEq] at h
  obtain ⟨frag, -, rfl⟩ := h
  exact ⟨rfl, rfl⟩

section Slashes
variable {isIPv6 : GoString → Bool} {lower : GoString → GoString} {rawURL scheme t : GoString}
  {u : URL}

theorem parseBody_slash (hs : getScheme rawURL = some (scheme, 0x2F :: 0x2F :: t))
    (h : parseBody isIPv6 lower rawURL = some u) : u.scheme = lower scheme ∧ u.rootless = [] := by
  have hstar : rawURL ≠ lit "*" := by
    rintro rfl
    have : getScheme (lit "*") = some ([], [0x2A]) := by decide
    simp [this] at hs
  rw [parseBody, if_neg hstar, hs] at h
  split_ifs at h
  simp only [Option.bind_eq_bind, Option.bind_some] at h
  -- The slash is still the first byte when the query is cut off.
  have hhead : (if (0x2F :: 0x2F :: t).getLast? = some 0x3F && (0x2F :: 0x2F :: t).count 0x3F = 1
      then ((0x2F :: 0x2F :: t).dropLast, ([] : GoString))
      else cut 0x3F (0x2F :: 0x2F :: t)).1.head? = some (0x2F : UInt8) := by
    split_ifs
    · simp
    · simp [cut]
  generalize (if (0x2F :: 0x2F :: t).getLast? = some 0x3F && (0x2F :: 0x2F :: t).count 0x3F = 1
      then ((0x2F :: 0x2F :: t).dropLast, ([] : GoString))
      else cut 0x3F (0x2F :: 0x2F :: t)) = rq at h hhead
  obtain ⟨rest, rawQuery⟩ := rq
  simp only [hhead, ne_eq, not_true_eq_false, decide_false, Bool.false_and, Bool.false_eq_true,
    if_false] at h
  split_ifs at h
  · simp only [Option.bind_eq_some_iff] at h
    obtain ⟨⟨user, host⟩, -, h⟩ := h
    exact setPath_keeps h
  · exact setPath_keeps h

theorem parse_slash (hs : getScheme (cut 0x23 rawURL).1 = some (scheme, 0x2F :: 0x2F :: t))
    (h : parse isIPv6 lower rawURL = some u) : u.scheme = lower scheme ∧ u.rootless = [] := by
  simp only [parse, Option.bind_eq_bind, Option.bind_eq_some_iff] at h
  obtain ⟨v, hv, h⟩ := h
  have hbody := parseBody_slash hs hv
  split_ifs at h
  · obtain rfl := Option.some.inj h
    exact hbody
  · obtain ⟨h1, h2⟩ := setFragment_keeps h
    exact ⟨h1.trans hbody.1, h2.trans hbody.2⟩

end Slashes

/-- ASCII without white space. -/
def Tidy (s : GoString) : Prop := ∀ b ∈ s, b < 0x80 ∧ isSpace b.toNat = false

instance (s : GoString) : Decidable (Tidy s) :=
  inferInstanceAs (Decidable (∀ b ∈ s, b < 0x80 ∧ isSpace b.toNat = false))

theorem Tidy.spaceFree (h : Tidy s) : spaceFree s = true := spaceFree_of_ascii h

theorem Tidy.append {t : GoString} (hs : Tidy s) (ht : Tidy t) : Tidy (s ++ t) := by
  intro b hb
  exact (mem_append.mp hb).elim (hs b) (ht b)

theorem tidy_nil : Tidy [] := by simp [Tidy]

theorem Tidy.ite {c : Prop} [Decidable c] {t : GoString} (hs : Tidy s) (ht : Tidy t) :
    Tidy (if c then s else t) := by
  split
  · exact hs
  · exact ht

theorem tidy_between {lo hi b : UInt8} (h : between lo hi b = true) (hlo : 0x20 < lo.toNat)
    (hhi : hi.toNat < 0x80) : b < 0x80 ∧ isSpace b.toNat = false := by
  rw [between_iff] at h
  refine ⟨?_, ?_⟩
  · rw [UInt8.lt_iff_toNat_lt]
    change b.toNat < 128
    omega
  · simp only [isSpace, Bool.or_eq_false_iff, Bool.and_eq_false_iff, decide_eq_false_iff_not]
    omega

theorem tidy_of_not_shouldEscape {c : UInt8} {mode : Encoding} (h : shouldEscape c mode = false) :
    c < 0x80 ∧ isSpace c.toNat = false := by
  have h1 : Tidy (lit "!$&'()*+,;=:[]<>\"") := by decide
  have h2 : Tidy (lit "-_.~") := by decide
  have h3 : Tidy (lit "$&+,/:;=?@") := by decide
  have h4 : Tidy (lit "!()*") := by decide
  rw [shouldEscape] at h
  split_ifs at h with hl hh hd hp hu hf hg
  · simp only [letter, digit, Bool.or_eq_true] at hl
    rcases hl with (hl | hl) | hl
    · exact tidy_between hl (by decide) (by decide)
    · exact tidy_between hl (by decide) (by decide)
    · exact tidy_between hl (by decide) (by decide)
  · exact h1 c (by simp at hh; exact hh.2)
  · exact h2 c hd
  · exact h3 c (by simp at hp; exact hp.2)
  · exact h3 c (by simp at hu; exact hu.2)
  · exact h3 c (by simp at hf; exact hf.2)
  · exact h4 c (by simp at hg; exact hg.2)

theorem tidy_upperhex {n : ℕ} (hn : n < 16) :
    upperhex n < 0x80 ∧ isSpace (upperhex n).toNat = false := by
  interval_cases n <;> decide

theorem tidy_escape (mode : Encoding) (s : GoString) : Tidy (escape mode s) := by
  intro b hb
  obtain ⟨c, -, hc⟩ := mem_flatMap.mp hb
  have hlt := c.toNat_lt
  split_ifs at hc with h
  · simp only [mem_cons, not_mem_nil, or_false] at hc
    rcases hc with rfl | rfl | rfl
    · decide
    · exact tidy_upperhex (by omega)
    · exact tidy_upperhex (by omega)
  · obtain rfl := mem_singleton.mp hc
    exact tidy_of_not_shouldEscape (by simpa using h)

theorem tidy_of_validEncoded {mode : Encoding} (h : validEncoded mode s = true) : Tidy s := by
  have hok : Tidy (lit "!$&'()*+,;=:@[]%") := by decide
  intro b hb
  have := all_eq_true.mp h b hb
  simp only [Bool.or_eq_true, decide_eq_true_eq, Bool.not_eq_true'] at this
  exact this.elim (hok b) tidy_of_not_shouldEscape

theorem tidy_escapedPath (u : URL) : Tidy u.escapedPath := by
  rw [URL.escapedPath]
  split_ifs with h1 h2
  · simp only [Bool.and_eq_true] at h1
    exact tidy_of_validEncoded h1.1.2
  · decide
  · exact tidy_escape _ _

theorem tidy_escapedFragment (u : URL) : Tidy u.escapedFragment := by
  rw [URL.escapedFragment]
  split_ifs with h1
  · simp only [Bool.and_eq_true] at h1
    exact tidy_of_validEncoded h1.1.2
  · exact tidy_escape _ _

theorem tidy_userinfo (ui : Userinfo) : Tidy ui.string := by
  refine (tidy_escape _ _).append ?_
  cases ui.password with
  | none => exact tidy_nil
  | some password => exact Tidy.append (s := [0x3A]) (by decide) (tidy_escape _ _)

theorem tidy_authority (u : URL) : Tidy u.authority := by
  have huser : Tidy (match u.user with
      | none => []
      | some ui => ui.string ++ [0x40]) := by
    cases u.user with
    | none => exact tidy_nil
    | some ui => exact (tidy_userinfo ui).append (by decide)
  have hslashes : Tidy (lit "//") := by decide
  exact Tidy.ite tidy_nil (Tidy.ite tidy_nil
    (Tidy.append (Tidy.append (Tidy.ite hslashes tidy_nil) huser) (tidy_escape _ _)))

theorem tidy_hierarchy {u : URL} (hs : Tidy u.scheme) (hr : u.rootless = []) :
    Tidy u.hierarchy := by
  have hstart := Tidy.ite (c := u.scheme = []) tidy_nil (hs.append (t := [0x3A]) (by decide))
  have hauth := hstart.append (tidy_authority u)
  have hslash := hauth.append (t := [0x2F]) (by decide)
  have hdot : Tidy (lit "./") := by decide
  simp only [URL.hierarchy, hr, ne_eq, not_true_eq_false, if_false]
  exact Tidy.append (Tidy.ite hdot (Tidy.ite hslash hauth)) (tidy_escapedPath u)

/-- Of a written URL only the query can contain white space. -/
theorem spaceFree_string {u : URL} (hs : Tidy u.scheme) (hr : u.rootless = []) :
    spaceFree u.string = spaceFree u.rawQuery := by
  have hh := (tidy_hierarchy hs hr).spaceFree
  have hf := (tidy_escapedFragment u).spaceFree
  have hquery : spaceFree (u.hierarchy ++
      if u.forceQuery || u.rawQuery ≠ [] then 0x3F :: u.rawQuery else []) =
        spaceFree u.rawQuery := by
    split_ifs with hq
    · rw [spaceFree_append_cons (by decide) (by decide), hh, Bool.true_and]
    · have h0 : u.rawQuery = [] := by
        by_contra h
        exact hq (by simp [h])
      rw [append_nil, hh, h0]
      rfl
  rw [URL.string]
  by_cases hfrag : u.fragment ≠ []
  · rw [if_pos hfrag, spaceFree_append_cons (by decide) (by decide), hquery, hf, Bool.and_true]
  · rw [if_neg hfrag, append_nil, hquery]

end Centaurx.NetURL
