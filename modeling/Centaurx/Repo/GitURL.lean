import Centaurx.Lib.NetURL
import Centaurx.Paths.Tenants

namespace Centaurx
open Go FilePath List NetURL Unicode

def ensureGitSuffix (value : GoString) : GoString :=
  if (lit ".git").isSuffixOf value then value else value ++ lit ".git"

def repoNameFromPath (value : GoString) : Except SchemaError RepoName :=
  if blank value then .error .invalidRepo
  else normalizeRepoName (base (trimSuffix value (lit ".git")))

inductive GitURLError
  | message (text : GoString)
  | schema (err : SchemaError)
  /-- An error of `url.Parse`. -/
  | url
  deriving DecidableEq

variable (uni : Unicode) (isIPv6 : GoString → Bool)

def normalizeGitURL (raw : GoString) : Except GitURLError (GoString × RepoName) :=
  let input := trimSpace raw
  if input = [] then .error (.schema .invalidRepo)
  else
    let lower := uni.toLower input
    if (lit "http://").isPrefixOf lower || (lit "https://").isPrefixOf lower then
      .error (.message (lit "only ssh git URLs are supported"))
    else if (lit "ssh://").isPrefixOf lower then
      match parse isIPv6 uni.toLower input with
      | none => .error .url
      | some parsed =>
        let trimmed := trimPrefix parsed.path [sep]
        if trimmed = [] then .error (.schema .invalidRepo)
        else
          match repoNameFromPath trimmed with
          | .error err => .error (.schema err)
          | .ok repoName =>
            .ok ({ parsed with path := sep :: ensureGitSuffix trimmed }.string, repoName)
    else if 0x40 ∈ input ∧ 0x3A ∈ input then
      let parts := cut 0x3A input
      if parts.1 = [] ∨ parts.2 = [] then .error (.schema .invalidRepo)
      else
        let pathPart := trimPrefix parts.2 [sep]
        match repoNameFromPath pathPart with
        | .error err => .error (.schema err)
        | .ok repoName => .ok (parts.1 ++ 0x3A :: ensureGitSuffix pathPart, repoName)
    else if sep ∈ input then
      let parts := cut sep input
      if parts.1 = [] ∨ parts.2 = [] then .error (.schema .invalidRepo)
      else
        match repoNameFromPath parts.2 with
        | .error err => .error (.schema err)
        | .ok repoName =>
          .ok (lit "git@" ++ parts.1 ++ 0x3A :: ensureGitSuffix parts.2, repoName)
    else .error (.schema .invalidRepo)

/-- The trimmed input begins with `ssh://` in some case. -/
def sshForm (raw : GoString) : Bool := (lit "ssh://").isPrefixOf (uni.toLower (trimSpace raw))

/-- The trimmed input has an `@` and a `:`. -/
def scpForm (raw : GoString) : Bool := 0x40 ∈ trimSpace raw ∧ 0x3A ∈ trimSpace raw

/-- The URL and the repository name that an accepted input gives. -/
inductive Accepted (raw url : GoString) (repoName : RepoName) : Prop
  | ssh (parsed : NetURL.URL) (form : sshForm uni raw = true)
      (parse : parse isIPv6 uni.toLower (trimSpace raw) = some parsed)
      (name : repoNameFromPath (trimPrefix parsed.path [sep]) = .ok repoName)
      (url_eq : url =
        { parsed with path := sep :: ensureGitSuffix (trimPrefix parsed.path [sep]) }.string)
  | scp (form : sshForm uni raw = false) (scp : scpForm raw = true)
      (host : (cut 0x3A (trimSpace raw)).1 ≠ [])
      (name : repoNameFromPath (trimPrefix (cut 0x3A (trimSpace raw)).2 [sep]) = .ok repoName)
      (url_eq : url = (cut 0x3A (trimSpace raw)).1 ++
        0x3A :: ensureGitSuffix (trimPrefix (cut 0x3A (trimSpace raw)).2 [sep]))
  | shorthand (form : sshForm uni raw = false) (scp : scpForm raw = false)
      (slash : sep ∈ trimSpace raw)
      (name : repoNameFromPath (cut sep (trimSpace raw)).2 = .ok repoName)
      (url_eq : url = lit "git@" ++ (cut sep (trimSpace raw)).1 ++
        0x3A :: ensureGitSuffix (cut sep (trimSpace raw)).2)

variable {uni isIPv6} {raw url : GoString} {r : RepoName}

theorem normalizeGitURL_ok (h : normalizeGitURL uni isIPv6 raw = .ok (url, r)) :
    Accepted uni isIPv6 raw url r := by
  simp only [normalizeGitURL] at h
  split_ifs at h with h0 hhttp hssh hscp hparts hslash hparts
  · split at h
    · exact absurd h (by simp)
    rename_i parsed hparse
    split_ifs at h with htrim
    split at h
    · exact absurd h (by simp)
    rename_i name hname
    obtain ⟨hurl, rfl⟩ := Prod.mk.inj (Except.ok.inj h)
    exact .ssh parsed hssh hparse hname hurl.symm
  · split at h
    · exact absurd h (by simp)
    rename_i name hname
    obtain ⟨hurl, rfl⟩ := Prod.mk.inj (Except.ok.inj h)
    exact .scp (Bool.eq_false_iff.mpr hssh) (by simpa [scpForm] using hscp)
      (fun h => hparts (.inl h)) hname hurl.symm
  · split at h
    · exact absurd h (by simp)
    rename_i name hname
    obtain ⟨hurl, rfl⟩ := Prod.mk.inj (Except.ok.inj h)
    exact .shorthand (Bool.eq_false_iff.mpr hssh) (by simpa [scpForm] using hscp) hslash hname
      hurl.symm

theorem boundary_git : Boundary (lit ".git") :=
  boundary_ascii (b := 0x2E) (by decide) [0x67, 0x69, 0x74]

theorem spaceFree_ensureGitSuffix (value : GoString) :
    spaceFree (ensureGitSuffix value) = spaceFree value := by
  rw [ensureGitSuffix]
  split_ifs
  · rfl
  · rw [spaceFree_append boundary_git]
    exact Bool.and_true _

theorem spaceFree_trimSlash (s : GoString) : spaceFree (trimPrefix s [sep]) = spaceFree s := by
  rcases trimPrefix_cases s [sep] with ⟨-, h⟩ | ⟨-, h⟩
  · conv_rhs => rw [h, singleton_append, spaceFree_ascii_cons (by decide)]
    exact (Bool.true_and _).symm
  · rw [h]

theorem spaceFree_trimGit {s : GoString} (h : spaceFree s = true) :
    spaceFree (trimSuffix s (lit ".git")) = true := by
  rcases trimSuffix_cases s (lit ".git") with ⟨-, hs⟩ | ⟨-, hs⟩
  · rw [hs, spaceFree_append boundary_git, Bool.and_eq_true] at h
    exact h.1
  · rwa [hs]

theorem spaceFree_base {s : GoString} (h : spaceFree s = true) : spaceFree (base s) = true := by
  rcases base_spec s with hb | hb | ⟨before, after, hs, hbefore, hafter⟩
  · rw [hb]
    decide
  · rw [hb]
    decide
  · have h1 : spaceFree (base s ++ after) = true := by
      rcases hbefore with rfl | ⟨before, rfl⟩
      · rwa [hs, nil_append] at h
      · rw [hs, append_assoc, singleton_append,
          spaceFree_append_cons (by decide) (by decide), Bool.and_eq_true] at h
        exact h.2
    rcases hafter with rfl | ⟨after, rfl⟩
    · rwa [append_nil] at h1
    · rw [spaceFree_append_cons (by decide) (by decide), Bool.and_eq_true] at h1
      exact h1.1

theorem spaceFree_repoNameFromPath {value : GoString} (h : spaceFree value = true)
    (hr : repoNameFromPath value = .ok r) : spaceFree r = true := by
  rw [repoNameFromPath] at hr
  split_ifs at hr
  have hb := spaceFree_base (spaceFree_trimGit h)
  rw [(normalizeRepoName_ok hr).2, trimSpace_of_spaceFree hb]
  exact hb

theorem toLower_byte {b k : UInt8} (h : ascii.toLower [b] = [k]) :
    b = k ∨ (between 0x41 0x5A b = true ∧ 0x61 ≤ k.toNat) := by
  replace h : (if between 0x41 0x5A b = true then b + 0x20 else b) = k := singleton_inj.mp h
  split_ifs at h with hb
  · right
    refine ⟨hb, ?_⟩
    rw [between_iff] at hb
    simp only [UInt8.reduceToNat] at hb
    rw [← h, UInt8.toNat_add]
    simp only [UInt8.reduceToNat]
    omega
  · exact .inl h

theorem toLower_sign {b k : UInt8} (hk : k.toNat < 0x61) (h : ascii.toLower [b] = [k]) :
    b = k :=
  (toLower_byte h).resolve_right fun h => absurd h.2 (by omega)

theorem toLower_letter {b k : UInt8} (hk : letter k = true)
    (h : ascii.toLower [b] = [k]) : letter b = true ∧ b < 0x80 := by
  have hl : letter b = true := by
    rcases toLower_byte h with rfl | ⟨hb, -⟩
    · exact hk
    · exact (Bool.or_eq_true _ _).mpr (.inr hb)
  refine ⟨hl, ?_⟩
  rcases (Bool.or_eq_true _ _).mp hl with h | h
  · exact (tidy_between h (by decide) (by decide)).1
  · exact (tidy_between h (by decide) (by decide)).1

theorem toLower_cons {b k : UInt8} {s t : GoString}
    (h : (k :: t).isPrefixOf (ascii.toLower (b :: s)) = true) :
    ascii.toLower [b] = [k] ∧ t.isPrefixOf (ascii.toLower s) = true := by
  rw [show ascii.toLower (b :: s) =
    ascii.toLower [b] ++ ascii.toLower s from rfl] at h
  generalize hb : ascii.toLower [b] = l at h
  obtain ⟨x, rfl⟩ : ∃ x, l = [x] := ⟨_, hb.symm⟩
  simp only [singleton_append, isPrefixOf, Bool.and_eq_true, beq_iff_eq] at h
  exact ⟨by rw [h.1], h.2⟩

theorem toLower_start_ssh {input : GoString}
    (h : (lit "ssh://").isPrefixOf (ascii.toLower input) = true) :
    ∃ a b c rest, input = a :: b :: c :: 0x3A :: 0x2F :: 0x2F :: rest ∧
      (∀ x ∈ [a, b, c], letter x = true ∧ x < 0x80) ∧
      ascii.toLower [a, b, c] = lit "ssh" := by
  have hlit : lit "ssh://" = [0x73, 0x73, 0x68, 0x3A, 0x2F, 0x2F] := by decide
  rw [hlit] at h
  match input with
  | [] | [_] | [_, _] | [_, _, _] | [_, _, _, _] | [_, _, _, _, _] => simp [ascii] at h
  | a :: b :: c :: d :: e :: f :: rest =>
    obtain ⟨ha, h⟩ := toLower_cons h
    obtain ⟨hb, h⟩ := toLower_cons h
    obtain ⟨hc, h⟩ := toLower_cons h
    obtain ⟨hd, h⟩ := toLower_cons h
    obtain ⟨he, h⟩ := toLower_cons h
    obtain ⟨hf, -⟩ := toLower_cons h
    obtain rfl := toLower_sign (by decide) hd
    obtain rfl := toLower_sign (by decide) he
    obtain rfl := toLower_sign (by decide) hf
    refine ⟨a, b, c, rest, rfl, ?_, ?_⟩
    · intro x hx
      simp only [mem_cons, not_mem_nil, or_false] at hx
      rcases hx with rfl | rfl | rfl
      · exact toLower_letter (by decide) ha
      · exact toLower_letter (by decide) hb
      · exact toLower_letter (by decide) hc
    · have hsplit : ascii.toLower [a, b, c] = ascii.toLower [a] ++
        ascii.toLower [b] ++ ascii.toLower [c] := rfl
      rw [hsplit, ha, hb, hc]
      decide

theorem parse_ssh (huni : uni.Lawful) (hform : sshForm uni raw = true) {parsed : NetURL.URL}
    (h : parse isIPv6 uni.toLower (trimSpace raw) = some parsed) :
    parsed.scheme = lit "ssh" ∧ parsed.rootless = [] := by
  rw [sshForm, huni.toLower_start _ _ (by decide)] at hform
  obtain ⟨a, b, c, rest, hinput, hletters, hlower⟩ := toLower_start_ssh hform
  simp only [mem_cons, not_mem_nil, or_false, forall_eq_or_imp, forall_eq] at hletters
  obtain ⟨ha, hb, hc⟩ := hletters
  have hhash : ∀ x, letter x = true → x ≠ 0x23 := by
    rintro x hx rfl
    exact absurd hx (by decide)
  -- Neither the scheme nor the slashes are lost to a fragment.
  have hcut : (cut 0x23 (trimSpace raw)).1 =
      a :: b :: c :: 0x3A :: 0x2F :: 0x2F :: (cut 0x23 rest).1 := by
    simp [hinput, cut, hhash, ha.1, hb.1, hc.1]
  have hscheme : getScheme (cut 0x23 (trimSpace raw)).1 =
      some ([a, b, c], 0x2F :: 0x2F :: (cut 0x23 rest).1) := by
    have hcolon : letter 0x3A = false ∧ digit 0x3A = false := by decide
    have hsigns : (0x3A : UInt8) ∉ lit "+-." := by decide
    rw [hcut]
    simp [getScheme, getSchemeFrom, ha.1, hb.1, hc.1, hcolon, hsigns]
  obtain ⟨h1, h2⟩ := parse_slash hscheme h
  refine ⟨?_, h2⟩
  rw [h1, huni.toLower _ (by simp [ha.2, hb.2, hc.2]), hlower]

theorem repoNameFromPath_ok {value : GoString} (hr : repoNameFromPath value = .ok r) :
    Plain r ∧ r = trimSpace (base (trimSuffix value (lit ".git"))) := by
  rw [repoNameFromPath] at hr
  split_ifs at hr
  exact normalizeRepoName_ok hr

theorem normalizeGitURL_plain (h : normalizeGitURL uni isIPv6 raw = .ok (url, r)) : Plain r := by
  cases normalizeGitURL_ok h with
  | ssh _ _ _ hname | scp _ _ _ hname | shorthand _ _ _ hname => exact (repoNameFromPath_ok hname).1

theorem head?_string_ssh {u : NetURL.URL} (hs : u.scheme = lit "ssh") :
    u.string.head? = some 0x73 := by
  obtain ⟨rest, hrest⟩ := scheme_isPrefix (u := u) (by rw [hs]; decide)
  rw [← hrest, hs]
  rfl

theorem normalizeGitURL_ne_nil (huni : uni.Lawful)
    (h : normalizeGitURL uni isIPv6 raw = .ok (url, r)) : url ≠ [] := by
  cases normalizeGitURL_ok h with
  | ssh parsed hform hparse _ hurl =>
    intro h0
    have hhead := head?_string_ssh (u := { parsed with
      path := sep :: ensureGitSuffix (trimPrefix parsed.path [sep]) })
      (parse_ssh huni hform hparse).1
    rw [← hurl, h0] at hhead
    simp at hhead
  | scp _ _ _ _ hurl | shorthand _ _ _ _ hurl => simp [hurl]

/-- The inputs that name a URL and a repository without white space. Of an `ssh://` URL the
query is taken over as it is, and the name of the repository is percent-decoded. In the other
two forms it is the input itself that matters, and a host with a user can begin with a dash. -/
def singleWords (uni : Unicode) (isIPv6 : GoString → Bool) (raw : GoString) : Bool :=
  if sshForm uni raw then
    match parse isIPv6 uni.toLower (trimSpace raw) with
    | none => true
    | some parsed => spaceFree parsed.rawQuery &&
        spaceFree (trimSpace (base (trimSuffix (trimPrefix parsed.path [sep]) (lit ".git"))))
  else spaceFree (trimSpace raw) && !(scpForm raw && (trimSpace raw).head? = some 0x2D)

theorem spaceFree_cut {b : UInt8} {s : GoString} (h : b ∈ s) (hb : b < 0x80)
    (hs : isSpace b.toNat = false) :
    spaceFree s = (spaceFree (cut b s).1 && spaceFree (cut b s).2) := by
  conv_lhs => rw [cut_eq h, spaceFree_append_cons hb hs]

/-- What git gets is one word for the URL and one for the name, and the URL is no option. -/
theorem singleWords_iff (huni : uni.Lawful) (h : normalizeGitURL uni isIPv6 raw = .ok (url, r)) :
    (spaceFree url = true ∧ spaceFree r = true ∧ url.head? ≠ some 0x2D) ↔
      singleWords uni isIPv6 raw = true := by
  cases normalizeGitURL_ok h with
  | ssh parsed hform hparse hname hurl =>
    obtain ⟨hscheme, hrootless⟩ := parse_ssh huni hform hparse
    have hr := (repoNameFromPath_ok hname).2
    have hfree : spaceFree url = spaceFree parsed.rawQuery := by
      rw [hurl]
      exact spaceFree_string (by rw [hscheme]; decide) hrootless
    have hhead : url.head? = some 0x73 := by
      rw [hurl]
      exact head?_string_ssh hscheme
    rw [singleWords, if_pos hform, hparse]
    simp only [hfree, hhead, ← hr, Bool.and_eq_true]
    exact ⟨fun h => ⟨h.1, h.2.1⟩, fun h => ⟨h.1, h.2, by decide⟩⟩
  | scp hform hscp hhost hname hurl =>
    have hcolon : (0x3A : UInt8) ∈ trimSpace raw := by
      simp only [scpForm, decide_eq_true_eq] at hscp
      exact hscp.2
    have hfree : spaceFree url = spaceFree (trimSpace raw) := by
      rw [hurl, spaceFree_append_cons (by decide) (by decide), spaceFree_ensureGitSuffix,
        spaceFree_trimSlash, ← spaceFree_cut hcolon (by decide) (by decide)]
    have hhead : url.head? = (trimSpace raw).head? := by
      conv_rhs => rw [cut_eq hcolon]
      rw [hurl, head?_append_of_ne_nil _ hhost, head?_append_of_ne_nil _ hhost]
    have hname' : spaceFree (trimSpace raw) = true → spaceFree r = true := by
      intro hs
      rw [spaceFree_cut hcolon (by decide) (by decide), Bool.and_eq_true] at hs
      exact spaceFree_repoNameFromPath (by rw [spaceFree_trimSlash]; exact hs.2) hname
    rw [singleWords, hform]
    simp only [Bool.false_eq_true, if_false, hfree, hhead, hscp, Bool.true_and, Bool.and_eq_true,
      Bool.not_eq_true', decide_eq_false_iff_not]
    exact ⟨fun h => ⟨h.1, h.2.2⟩, fun h => ⟨h.1, hname' h.1, h.2⟩⟩
  | shorthand hform hscp hslash hname hurl =>
    have hfree : spaceFree url = spaceFree (trimSpace raw) := by
      have hgit : spaceFree (lit "git@" ++ (cut sep (trimSpace raw)).1) =
          spaceFree (cut sep (trimSpace raw)).1 := by
        rw [show lit "git@" = [0x67, 0x69, 0x74, 0x40] by decide]
        simp only [cons_append, nil_append]
        iterate 4 rw [spaceFree_ascii_cons (by decide)]
        simp [isSpace]
      rw [hurl, spaceFree_append_cons (by decide) (by decide), spaceFree_ensureGitSuffix, hgit,
        ← spaceFree_cut hslash (by decide) (by decide)]
    have hhead : url.head? = some 0x67 := by
      rw [hurl, show lit "git@" = [0x67, 0x69, 0x74, 0x40] by decide]
      rfl
    have hname' : spaceFree (trimSpace raw) = true → spaceFree r = true := by
      intro hs
      rw [spaceFree_cut hslash (by decide) (by decide), Bool.and_eq_true] at hs
      exact spaceFree_repoNameFromPath hs.2 hname
    rw [singleWords, hform]
    simp only [Bool.false_eq_true, if_false, hfree, hhead, hscp, Bool.false_and, Bool.not_false,
      Bool.and_true]
    exact ⟨fun h => h.1, fun h => ⟨h, hname' h, by decide⟩⟩

end Centaurx
