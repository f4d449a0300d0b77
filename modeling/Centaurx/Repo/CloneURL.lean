import Centaurx.Repo.GitURL

namespace Centaurx
open Go FilePath List NetURL Unicode

/-- The path without the suffix. -/
def stem (path : GoString) : GoString := trimSuffix path (lit ".git")

/-- The host and the path that an scp-like input or a shorthand names. -/
def hostAndPath (raw : GoString) : GoString × GoString :=
  let input := trimSpace raw
  if scpForm raw then ((cut 0x3A input).1, trimPrefix (cut 0x3A input).2 [sep])
  else cut sep input

/-- What follows the last slash or colon. -/
def lastComponent (url : GoString) : GoString := lastPart (fun b => b = sep || b = 0x3A) url

/-- The path ends with the name of the repository: there is no slash behind it, no colon in it and
no white space around it. -/
def namedPath (path : GoString) : Bool :=
  (stem path).getLast? ≠ some sep && 0x3A ∉ base (stem path) &&
    trimSpace (base (stem path)) = base (stem path)

/-- The inputs whose URL is in normal form. The path must not begin with a slash; if the host has
a colon, the path is taken to begin behind it, and then it must have a slash before the name. -/
def normalInput (raw : GoString) : Bool :=
  let host := (hostAndPath raw).1
  let path := (hostAndPath raw).2
  namedPath path && if 0x3A ∈ host then sep ∈ stem path else path.head? ≠ some sep

theorem lit_git : lit ".git" = [0x2E, 0x67, 0x69, 0x74] := by decide

theorem path_cases (path : GoString) : path = stem path ∨ path = stem path ++ lit ".git" := by
  rcases trimSuffix_cases path (lit ".git") with ⟨-, h⟩ | ⟨-, h⟩
  · exact .inr h
  · exact .inl h.symm

theorem ensureGitSuffix_eq (path : GoString) : ensureGitSuffix path = stem path ++ lit ".git" := by
  rw [ensureGitSuffix, stem]
  rcases trimSuffix_cases path (lit ".git") with ⟨h, heq⟩ | ⟨h, heq⟩
  · rw [if_pos h, ← heq]
  · rw [if_neg (by simp [h]), heq]

theorem stem_append (s : GoString) : stem (s ++ lit ".git") = s := by
  have h : (lit ".git").isSuffixOf (s ++ lit ".git") = true :=
    isSuffixOf_iff_suffix.mpr (suffix_append _ _)
  rw [stem, trimSuffix, if_pos h]
  simp

theorem ensureGitSuffix_append (s : GoString) :
    ensureGitSuffix (s ++ lit ".git") = s ++ lit ".git" := by
  rw [ensureGitSuffix_eq, stem_append]

theorem repoNameFromPath_stem (path : GoString) (hblank : blank path = false) :
    repoNameFromPath path = normalizeRepoName (base (stem path)) := by
  rw [repoNameFromPath, hblank]
  rfl

theorem not_blank_append_git (s : GoString) : blank (s ++ lit ".git") = false := by
  have hmem : (0x2E : UInt8) ∈ trimSpace (s ++ lit ".git") :=
    mem_trimSpace (by decide) (mem_append_right _ (by decide))
  rw [blank, decide_eq_false_iff_not]
  intro h
  simp [h] at hmem

theorem lastComponent_append (front s : GoString) :
    lastComponent (front ++ 0x3A :: (s ++ lit ".git")) = lastComponent s ++ lit ".git" := by
  rw [lastComponent, lastPart_append_cons (by decide), lastPart_append (by decide)]
  rfl

/-- What follows the last slash or colon follows the last colon of the last element. -/
theorem lastComponent_eq (s : GoString) :
    lastComponent s = lastPart (· = 0x3A) (lastPart (· = sep) s) := by
  rw [lastPart_lastPart]
  rfl

theorem lastComponent_iff {s : GoString} (hname : Plain (trimSpace (base s))) :
    lastComponent s = trimSpace (base s) ↔
      s.getLast? ≠ some sep ∧ 0x3A ∉ base s ∧ trimSpace (base s) = base s := by
  have hne : s ≠ [] := by
    rintro rfl
    exact hname.ne_dot (by decide)
  by_cases hlast : s.getLast? = some sep
  · -- Behind the last slash there is nothing, and a name is not empty.
    obtain ⟨t, rfl⟩ := getLast?_eq_some_iff.mp hlast
    have hempty : lastComponent (t ++ [sep]) = [] := by
      rw [lastComponent, lastPart_append_cons (by decide)]
      rfl
    refine iff_of_false (fun h => hname.ne_nil ?_) fun h => h.1 hlast
    rw [← h, hempty]
  rw [lastComponent_eq, ← (base_eq hne hlast).1]
  by_cases hcolon : 0x3A ∈ base s
  · refine iff_of_false (fun h => ?_) fun h => h.2.1 hcolon
    have hmem : (0x3A : UInt8) ∈ trimSpace (base s) := mem_trimSpace (by decide) hcolon
    rw [← h] at hmem
    simpa using not_separates_lastPart _ _ hmem
  · have hself : lastPart (· = 0x3A) (base s) = base s :=
      lastPart_eq_self fun b hb => decide_eq_false fun hb' => hcolon (hb' ▸ hb)
    rw [hself]
    exact ⟨fun h => ⟨hlast, hcolon, h.symm⟩, fun h => h.2.2.symm⟩

section
variable {uni : Unicode} (huni : uni.Lawful)

theorem toLower_start_scheme {scheme input : GoString}
    (hscheme : ∀ b ∈ scheme, letter b = true)
    (h : (scheme ++ lit "://").isPrefixOf (ascii.toLower input) = true) :
    ∃ s rest, input = s ++ 0x3A :: sep :: sep :: rest ∧ 0x3A ∉ s := by
  induction scheme generalizing input with
  | nil =>
    rw [nil_append, show lit "://" = [0x3A, 0x2F, 0x2F] by decide] at h
    match input with
    | [] | [_] | [_, _] => simp [ascii] at h
    | a :: b :: c :: rest =>
      obtain ⟨ha, h⟩ := toLower_cons h
      obtain ⟨hb, h⟩ := toLower_cons h
      obtain ⟨hc, -⟩ := toLower_cons h
      obtain rfl := toLower_sign (by decide) ha
      obtain rfl := toLower_sign (by decide) hb
      obtain rfl := toLower_sign (by decide) hc
      exact ⟨[], rest, rfl, by simp⟩
  | cons k scheme ih =>
    rw [forall_mem_cons] at hscheme
    cases input with
    | nil => simp [ascii] at h
    | cons b input =>
      obtain ⟨hb, h⟩ := toLower_cons h
      obtain ⟨s, rest, rfl, hs⟩ := ih hscheme.2 h
      refine ⟨b :: s, rest, rfl, ?_⟩
      rw [mem_cons, not_or]
      refine ⟨?_, hs⟩
      rintro rfl
      exact absurd (toLower_letter hscheme.1 hb).1 (by decide)

include huni

theorem not_scheme (scheme : GoString) {host path : GoString}
    (hscheme : ∀ b ∈ scheme, letter b = true ∧ b < 0x80 ∧ b ≠ 0x69 ∧ b ≠ 0x6B)
    (hhost : 0x3A ∉ host) (hslash : ¬[sep, sep] <+: path) :
    (scheme ++ lit "://").isPrefixOf (uni.toLower (host ++ 0x3A :: path)) = false := by
  have hascii : ∀ b ∈ scheme ++ lit "://", b < 0x80 ∧ b ≠ 0x69 ∧ b ≠ 0x6B := by
    rw [forall_mem_append]
    exact ⟨fun b hb => (hscheme b hb).2, by decide⟩
  rw [huni.toLower_start _ _ hascii]
  refine Bool.eq_false_iff.mpr fun h => ?_
  obtain ⟨s, rest, heq, hs⟩ := toLower_start_scheme (fun b hb => (hscheme b hb).1) h
  have hcut := cut_append hhost path
  rw [heq, cut_append hs] at hcut
  exact hslash ⟨rest, (Prod.mk.inj hcut).2⟩

theorem normalizeGitURL_scp (isIPv6 : GoString → Bool) {host path : GoString}
    (hhost : 0x3A ∉ host) (hne : host ≠ []) (hpath : path ≠ []) (hat : 0x40 ∈ host ++ 0x3A :: path)
    (htrim : trimSpace (host ++ 0x3A :: path) = host ++ 0x3A :: path)
    (hslash : ¬[sep, sep] <+: path) :
    normalizeGitURL uni isIPv6 (host ++ 0x3A :: path) =
      match repoNameFromPath (trimPrefix path [sep]) with
      | .error err => .error (.schema err)
      | .ok repoName =>
        .ok (host ++ 0x3A :: ensureGitSuffix (trimPrefix path [sep]), repoName) := by
  have hhttp : (lit "http://").isPrefixOf (uni.toLower (host ++ 0x3A :: path)) = false :=
    not_scheme huni (lit "http") (by decide) hhost hslash
  have hhttps : (lit "https://").isPrefixOf (uni.toLower (host ++ 0x3A :: path)) = false :=
    not_scheme huni (lit "https") (by decide) hhost hslash
  have hssh : (lit "ssh://").isPrefixOf (uni.toLower (host ++ 0x3A :: path)) = false :=
    not_scheme huni (lit "ssh") (by decide) hhost hslash
  have hcolon : (0x3A : UInt8) ∈ host ++ 0x3A :: path := by simp
  simp only [normalizeGitURL, htrim, hhttp, hhttps, hssh, cut_append hhost, hat, hcolon,
    hne, hpath, and_self, or_self, Bool.or_self, Bool.false_eq_true, if_false, if_true]
  refine (if_neg (by simp)).trans ?_
  cases repoNameFromPath (trimPrefix path [sep]) <;> rfl

end

/-- What stands before the colon of the URL. -/
def cloneHost (raw : GoString) : GoString :=
  if scpForm raw then (hostAndPath raw).1 else lit "git@" ++ (hostAndPath raw).1

variable {uni : Unicode} {isIPv6 : GoString → Bool} {raw url : GoString} {r : RepoName}

/-- What is known of an accepted input that is no `ssh://` URL. -/
structure Cloned (uni : Unicode) (raw url : GoString) (r : RepoName) : Prop where
  url_eq : url = cloneHost raw ++ 0x3A :: (stem (hostAndPath raw).2 ++ lit ".git")
  name : repoNameFromPath (hostAndPath raw).2 = .ok r
  at_mem : 0x40 ∈ url
  host_ne : cloneHost raw ≠ []
  trimmed : trimSpace url = url
  form : sshForm uni url = false

theorem isPrefix_of_append_cons {b : UInt8} {p s t : GoString} (h : p <+: s ++ b :: t)
    (hb : b ∉ p) : p <+: s := by
  have hs : s ++ [b] <+: s ++ b :: t := ⟨t, by simp⟩
  rcases prefix_or_prefix_of_prefix h hs with h | h
  · rcases prefix_concat_iff.mp h with rfl | h
    · simp at hb
    · exact h
  · exact absurd (h.subset (by simp)) hb

theorem trimSpace_git {s : GoString} (hstart : ∀ p ∈ spaces, ¬p <+: s ++ lit ".git") :
    trimSpace (s ++ lit ".git") = s ++ lit ".git" := by
  refine trimSpace_eq_self hstart fun p hp hsuffix => ?_
  have hlast : ∀ p ∈ spaces, p ≠ [] ∧ p.getLast? ≠ some 0x74 := by decide
  have hgit : (s ++ lit ".git").getLast? = some 0x74 := by
    rw [getLast?_append_of_ne_nil _ (by decide)]
    decide
  obtain ⟨q, hq⟩ := hsuffix
  rw [← hq, getLast?_append_of_ne_nil _ (hlast p hp).1] at hgit
  exact (hlast p hp).2 hgit

theorem mem_stem {b : UInt8} {path : GoString} (hb : b ∉ lit ".git") :
    b ∈ stem path ↔ b ∈ path := by
  rcases path_cases path with h | h
  · rw [← h]
  · conv_rhs => rw [h, mem_append]
    simp [hb]

theorem head?_stem {b : UInt8} (hb : b ≠ 0x2E) (path : GoString) :
    (stem path ++ lit ".git").head? = some b ↔ path.head? = some b := by
  rcases path_cases path with h | h
  · rw [← h]
    cases path with
    | nil => simpa [lit_git] using hb.symm
    | cons c path => simp
  · rw [← h]

theorem slashes_stem {path rest : GoString} (h : stem path ++ lit ".git" = sep :: sep :: rest) :
    ∃ t, path = sep :: sep :: t := by
  have hsep : sep ≠ 0x2E := by decide
  have hstem : ∃ t, stem path = sep :: sep :: t := by
    rw [lit_git] at h
    match hs : stem path with
    | [] | [x] => simp [hs, hsep.symm] at h
    | x :: y :: t =>
      simp only [hs, cons_append, cons.injEq] at h
      exact ⟨t, by rw [h.1, h.2.1]⟩
  obtain ⟨t, ht⟩ := hstem
  rcases path_cases path with h | h
  · exact ⟨t, by rw [h, ht]⟩
  · exact ⟨t ++ lit ".git", by rw [h, ht]; rfl⟩

theorem cut_scp (hscp : scpForm raw = true) :
    trimSpace raw = (hostAndPath raw).1 ++ 0x3A :: (cut 0x3A (trimSpace raw)).2 ∧
      (hostAndPath raw).2 = trimPrefix (cut 0x3A (trimSpace raw)).2 [sep] ∧
      0x3A ∉ (hostAndPath raw).1 := by
  have hcolon : (0x3A : UInt8) ∈ trimSpace raw := by
    simp only [scpForm, decide_eq_true_eq] at hscp
    exact hscp.2
  simp only [hostAndPath, if_pos hscp]
  exact ⟨cut_eq hcolon, trivial, notMem_cut _ _⟩

theorem sshForm_scp (huni : uni.Lawful) (hscp : scpForm raw = true)
    (hform : sshForm uni raw = false) (htrim : trimSpace url = url)
    (hurl : url = (hostAndPath raw).1 ++ 0x3A :: (stem (hostAndPath raw).2 ++ lit ".git")) :
    sshForm uni url = false := by
  obtain ⟨hraw, hpath, hhost⟩ := cut_scp hscp
  refine Bool.eq_false_iff.mpr fun h => ?_
  rw [sshForm, huni.toLower_start _ _ (by decide), htrim] at h
  obtain ⟨a, b, c, rest, heq, hletters, hlower⟩ := toLower_start_ssh h
  have hletter : (0x3A : UInt8) ∉ [a, b, c] := fun hmem =>
    absurd (hletters _ hmem).1 (by decide)
  have hcut := cut_append hhost (stem (hostAndPath raw).2 ++ lit ".git")
  have hcut' := cut_append hletter (0x2F :: 0x2F :: rest)
  rw [← hurl, heq] at hcut
  obtain ⟨hleft, hright⟩ := Prod.mk.inj (hcut.symm.trans hcut')
  -- The slashes of the URL are slashes of the input.
  obtain ⟨t, hslash⟩ := slashes_stem hright
  have hinput : ∃ t, (cut 0x3A (trimSpace raw)).2 = sep :: sep :: t := by
    rcases trimPrefix_cases (cut 0x3A (trimSpace raw)).2 [sep] with ⟨-, h⟩ | ⟨-, h⟩
    · exact ⟨sep :: t, by rw [h, ← hpath, hslash]; rfl⟩
    · exact ⟨t, by rw [← h, ← hpath, hslash]⟩
  obtain ⟨t, ht⟩ := hinput
  rw [sshForm, huni.toLower_start _ _ (by decide), hraw, hleft, ht] at hform
  have happend : ascii.toLower ([a, b, c] ++ 0x3A :: sep :: sep :: t) =
      lit "ssh://" ++ ascii.toLower t := by
    have hsplit : ascii.toLower ([a, b, c] ++ 0x3A :: sep :: sep :: t) =
        ascii.toLower [a, b, c] ++ lit "://" ++ ascii.toLower t := rfl
    rw [hsplit, hlower]
    rfl
  rw [happend, Bool.eq_false_iff] at hform
  exact hform ( isPrefixOf_iff_prefix.mpr (prefix_append _ _))

theorem cloned_scp (huni : uni.Lawful) (hform : sshForm uni raw = false) (hscp : scpForm raw = true)
    (hhost : (cut 0x3A (trimSpace raw)).1 ≠ [])
    (hname : repoNameFromPath (trimPrefix (cut 0x3A (trimSpace raw)).2 [sep]) = .ok r)
    (hurl : url = (cut 0x3A (trimSpace raw)).1 ++
      0x3A :: ensureGitSuffix (trimPrefix (cut 0x3A (trimSpace raw)).2 [sep])) :
    Cloned uni raw url r := by
  obtain ⟨hraw, hpath, hcolon⟩ := cut_scp hscp
  have hhost_eq : (hostAndPath raw).1 = (cut 0x3A (trimSpace raw)).1 := by
    simp only [hostAndPath, if_pos hscp]
  rw [← hpath, ensureGitSuffix_eq, ← hhost_eq] at hurl
  have htrim : trimSpace url = url := by
    rw [hurl, ← cons_append, ← append_assoc]
    apply trimSpace_git
    intro p hp hpre
    have hb : (0x3A : UInt8) ∉ p := (by decide : ∀ p ∈ spaces, (0x3A : UInt8) ∉ p) p hp
    rw [append_assoc, cons_append] at hpre
    refine not_isPrefixOf_trimSpace raw p hp ?_
    rw [hraw]
    exact (isPrefix_of_append_cons hpre hb).trans (prefix_append _ _)
  have hat : (0x40 : UInt8) ∈ url := by
    have hmem : (0x40 : UInt8) ∈ trimSpace raw := by
      simp only [scpForm, decide_eq_true_eq] at hscp
      exact hscp.1
    rw [hurl, mem_append, mem_cons, mem_append, mem_stem (by decide), hpath]
    rw [hraw, mem_append, mem_cons] at hmem
    rcases hmem with hmem | hmem | hmem
    · exact .inl hmem
    · exact absurd hmem (by decide)
    · right; right; left
      rcases trimPrefix_cases (cut 0x3A (trimSpace raw)).2 [sep] with ⟨-, h⟩ | ⟨-, h⟩
      · rw [h, singleton_append, mem_cons] at hmem
        exact hmem.resolve_left (by decide)
      · rwa [h]
  have hclone : cloneHost raw = (hostAndPath raw).1 := if_pos hscp
  exact ⟨by rw [hclone]; exact hurl, by rw [hpath]; exact hname, hat, by rwa [hclone, hhost_eq],
    htrim, sshForm_scp huni hscp hform htrim hurl⟩

theorem cloned_shorthand (huni : uni.Lawful) (hscp : scpForm raw = false)
    (hname : repoNameFromPath (cut sep (trimSpace raw)).2 = .ok r)
    (hurl : url = lit "git@" ++ (cut sep (trimSpace raw)).1 ++
      0x3A :: ensureGitSuffix (cut sep (trimSpace raw)).2) :
    Cloned uni raw url r := by
  have hparts : hostAndPath raw = cut sep (trimSpace raw) := by
    simp only [hostAndPath, hscp, Bool.false_eq_true, if_false]
  have hclone : cloneHost raw = lit "git@" ++ (hostAndPath raw).1 := by
    rw [cloneHost, hscp]
    rfl
  rw [ensureGitSuffix_eq, ← hparts, ← hclone] at hurl
  rw [← hparts] at hname
  have hgit : lit "git@" = [0x67, 0x69, 0x74, 0x40] := by decide
  have hhead : url.head? = some 0x67 := by
    rw [hurl, hclone, hgit]
    rfl
  have htrim : trimSpace url = url := by
    rw [hurl, ← cons_append, ← append_assoc]
    apply trimSpace_git
    rintro p hp ⟨t, ht⟩
    have hp' := (by decide : ∀ p ∈ spaces, p ≠ [] ∧ p.head? ≠ some 0x67) p hp
    rw [hurl, ← cons_append, ← append_assoc, ← ht, head?_append_of_ne_nil _ hp'.1]
      at hhead
    exact hp'.2 hhead
  refine ⟨hurl, hname, ?_, ?_, htrim, ?_⟩
  · rw [hurl, hclone, hgit]
    simp
  · rw [hclone, hgit]
    simp
  · obtain ⟨t, rfl⟩ := head?_eq_some_iff.mp hhead
    rw [sshForm, huni.toLower_start _ _ (by decide), htrim]
    refine Bool.eq_false_iff.mpr fun h => ?_
    rw [show lit "ssh://" = [0x73, 0x73, 0x68, 0x3A, 0x2F, 0x2F] by decide] at h
    exact absurd (toLower_cons h).1 (by decide)

theorem cloned (huni : uni.Lawful) (hform : sshForm uni raw = false)
    (h : normalizeGitURL uni isIPv6 raw = .ok (url, r)) : Cloned uni raw url r := by
  cases normalizeGitURL_ok h with
  | ssh _ hssh => rw [hssh] at hform; cases hform
  | scp hform hscp hhost hname hurl => exact cloned_scp huni hform hscp hhost hname hurl
  | shorthand _ hscp _ hname hurl => exact cloned_shorthand huni hscp hname hurl

theorem trimPrefix_of_head? {s : GoString} (h : s.head? ≠ some sep) : trimPrefix s [sep] = s := by
  rcases trimPrefix_cases s [sep] with ⟨-, heq⟩ | ⟨-, heq⟩
  · rw [heq] at h
    simp at h
  · exact heq

theorem Cloned.name_eq (h : Cloned uni raw url r) :
    normalizeRepoName (base (stem (hostAndPath raw).2)) = .ok r := by
  have hname := h.name
  rw [repoNameFromPath] at hname
  split_ifs at hname
  exact hname

theorem Cloned.lastComponent_iff (h : Cloned uni raw url r) :
    lastComponent url = r ++ lit ".git" ↔ namedPath (hostAndPath raw).2 = true := by
  obtain ⟨hplain, rfl⟩ := normalizeRepoName_ok h.name_eq
  rw [h.url_eq, lastComponent_append, append_cancel_right_eq,
    Centaurx.lastComponent_iff hplain]
  simp [namedPath, and_assoc]

/-- The path behind the first colon is normalized once more. -/
theorem Cloned.renormalize (huni : uni.Lawful) (h : Cloned uni raw url r) {host s : GoString}
    (hurl : url = host ++ 0x3A :: (s ++ lit ".git")) (hcolon : 0x3A ∉ host) (hne : host ≠ [])
    (hhead : (s ++ lit ".git").head? ≠ some sep) :
    normalizeGitURL uni isIPv6 url = .ok (url, r) ↔ normalizeRepoName (base s) = .ok r := by
  have hslash : ¬[sep, sep] <+: s ++ lit ".git" := by
    rintro ⟨t, ht⟩
    rw [← ht] at hhead
    exact hhead rfl
  have hscp := normalizeGitURL_scp huni isIPv6 hcolon hne (by simp [lit_git])
    (hurl ▸ h.at_mem) (hurl ▸ h.trimmed) hslash
  rw [trimPrefix_of_head? hhead, ensureGitSuffix_append,
    repoNameFromPath_stem _ (not_blank_append_git s), stem_append, ← hurl] at hscp
  rw [hscp]
  cases normalizeRepoName (base s) with
  | error err | ok name => simp

/-- A slash in front of the path is lost. -/
theorem Cloned.not_renormalized (h : Cloned uni raw url r) (hcolon : 0x3A ∉ cloneHost raw)
    (hhead : (stem (hostAndPath raw).2 ++ lit ".git").head? = some sep) :
    normalizeGitURL uni isIPv6 url ≠ .ok (url, r) := by
  intro hok
  have hform : scpForm url = true := by
    have hmem : (0x3A : UInt8) ∈ url := by
      rw [h.url_eq]
      simp
    simp [scpForm, h.trimmed, h.at_mem, hmem]
  cases normalizeGitURL_ok hok with
  | ssh _ hssh => rw [h.form] at hssh; cases hssh
  | shorthand _ hscp => rw [hform] at hscp; cases hscp
  | scp _ _ _ _ hurl =>
    have hstem : ∃ t, stem (hostAndPath raw).2 = sep :: t := by
      cases hs : stem (hostAndPath raw).2 with
      | nil =>
        rw [hs, lit_git] at hhead
        exact absurd hhead (by decide)
      | cons b t =>
        rw [hs] at hhead
        exact ⟨t, by rw [Option.some.inj hhead]⟩
    obtain ⟨t, ht⟩ := hstem
    have hcut : cut 0x3A url = (cloneHost raw, sep :: (t ++ lit ".git")) := by
      conv_lhs => rw [h.url_eq, ht]
      exact cut_append hcolon _
    have htrim : trimPrefix (sep :: (t ++ lit ".git")) [sep] = t ++ lit ".git" := by
      simp [trimPrefix, isPrefixOf]
    rw [h.trimmed, hcut, htrim, ensureGitSuffix_append] at hurl
    have hlength := congrArg length (h.url_eq.symm.trans hurl)
    rw [ht] at hlength
    simp at hlength

theorem cloneHost_of_colon (hcolon : 0x3A ∈ (hostAndPath raw).1) :
    cloneHost raw = lit "git@" ++ (hostAndPath raw).1 ∧ sep ∉ (hostAndPath raw).1 := by
  have hscp : scpForm raw = false := by
    refine Bool.eq_false_iff.mpr fun hscp => ?_
    exact (cut_scp hscp).2.2 hcolon
  constructor
  · rw [cloneHost, hscp]
    rfl
  · simp only [hostAndPath, hscp, Bool.false_eq_true, if_false]
    exact notMem_cut _ _

theorem Cloned.renormalize_colon (huni : uni.Lawful) (h : Cloned uni raw url r)
    (hnamed : namedPath (hostAndPath raw).2 = true) (hcolon : 0x3A ∈ (hostAndPath raw).1) :
    normalizeGitURL uni isIPv6 url = .ok (url, r) ↔ sep ∈ stem (hostAndPath raw).2 := by
  obtain ⟨hclone, hsep⟩ := cloneHost_of_colon hcolon
  simp only [namedPath, Bool.and_eq_true, decide_eq_true_eq] at hnamed
  obtain ⟨⟨hlast, hplain⟩, htrimmed⟩ := hnamed
  obtain ⟨before, after, hhost, hbefore⟩ := eq_append_cons_of_mem hcolon
  rw [hhost] at hclone hsep
  simp only [mem_append, mem_cons, not_or] at hsep
  have hurl : url = (lit "git@" ++ before) ++
      0x3A :: ((after ++ 0x3A :: stem (hostAndPath raw).2) ++ lit ".git") := by
    rw [h.url_eq, hclone]
    simp
  have hfront : (0x3A : UInt8) ∉ lit "git@" ++ before := by
    rw [mem_append, not_or]
    exact ⟨by decide, hbefore⟩
  have hhead : ((after ++ 0x3A :: stem (hostAndPath raw).2) ++ lit ".git").head? ≠ some sep := by
    cases after with
    | nil => exact by simp [sep]
    | cons b after =>
      simp only [cons_append, head?_cons, ne_eq, Option.some.injEq]
      rintro rfl
      exact hsep.2.2 (by simp)
  rw [h.renormalize huni hurl hfront (by simp [show lit "git@" ≠ [] by decide]) hhead]
  by_cases hmem : sep ∈ stem (hostAndPath raw).2
  · have hbase : base (after ++ 0x3A :: stem (hostAndPath raw).2) =
        base (stem (hostAndPath raw).2) := by
      rw [append_cons, base_append hmem hlast]
    rw [hbase]
    exact iff_of_true h.name_eq hmem
  · -- The name has the rest of the host in front now.
    refine iff_of_false (fun hname => hplain ?_) hmem
    have hnone : sep ∉ after ++ 0x3A :: stem (hostAndPath raw).2 := by
      rw [mem_append, mem_cons]
      rintro (hmem' | hmem' | hmem')
      · exact hsep.2.2 hmem'
      · exact absurd hmem' (by decide)
      · exact hmem hmem'
    have hr := (normalizeRepoName_ok hname).2
    rw [base_of_sep_notMem (by simp) hnone] at hr
    rw [← htrimmed, ← (normalizeRepoName_ok h.name_eq).2, hr]
    exact mem_trimSpace (by decide) (by simp)

/-- **Clone URLs.** The clone URL of an scp-like input or a shorthand ends with the name of the
repository and `.git`, and is normalized to itself and the same name, exactly for the inputs
described above. -/
theorem normalForm_iff (huni : uni.Lawful) (hform : sshForm uni raw = false)
    (h : normalizeGitURL uni isIPv6 raw = .ok (url, r)) :
    (lastComponent url = r ++ lit ".git" ∧ normalizeGitURL uni isIPv6 url = .ok (url, r)) ↔
      normalInput raw = true := by
  have hcl := cloned huni hform h
  simp only [normalInput, hcl.lastComponent_iff, Bool.and_eq_true]
  refine and_congr_right fun hnamed => ?_
  by_cases hcolon : 0x3A ∈ (hostAndPath raw).1
  · rw [hcl.renormalize_colon huni hnamed hcolon, if_pos hcolon]
    simp
  · have hclone : (0x3A : UInt8) ∉ cloneHost raw := by
      rw [cloneHost]
      split_ifs
      · exact hcolon
      · rw [mem_append, not_or]
        exact ⟨by decide, hcolon⟩
    have hhead := head?_stem (show sep ≠ 0x2E by decide) (hostAndPath raw).2
    rw [if_neg hcolon]
    by_cases hslash : (hostAndPath raw).2.head? = some sep
    · refine iff_of_false (hcl.not_renormalized hclone (hhead.mpr hslash)) ?_
      simp [hslash]
    · have hhead' : (stem (hostAndPath raw).2 ++ lit ".git").head? ≠ some sep := fun h =>
        hslash (hhead.mp h)
      rw [hcl.renormalize huni hcl.url_eq hclone hcl.host_ne hhead']
      exact iff_of_true hcl.name_eq (by simpa using hslash)

/-- A shorthand with the suffix twice. -/
theorem normalForm_shorthand :
    lastComponent (lit "git@example.com:me/app.git.git") = lit "app.git" ++ lit ".git" ∧
      normalizeGitURL ascii (fun _ => false) (lit "git@example.com:me/app.git.git") =
        .ok (lit "git@example.com:me/app.git.git", lit "app.git") := by
  have h : normalizeGitURL ascii (fun _ => false) (lit "example.com/me/app.git.git") =
      .ok (lit "git@example.com:me/app.git.git", lit "app.git") := by decide
  exact (normalForm_iff ascii_lawful (by decide) h).mpr (by decide)

/-- A slash at the end separates the suffix from the name. A second slash at the beginning of the
path is still there in the URL, and is taken off when the URL is normalized again. -/
theorem normalForm_slashes :
    normalizeGitURL ascii (fun _ => false) (lit "git@example.com:me/app/") =
        .ok (lit "git@example.com:me/app/.git", lit "app") ∧
      lastComponent (lit "git@example.com:me/app/.git") = lit ".git" ∧
      normalizeGitURL ascii (fun _ => false) (lit "git@example.com://srv/app") =
        .ok (lit "git@example.com:/srv/app.git", lit "app") ∧
      normalizeGitURL ascii (fun _ => false) (lit "git@example.com:/srv/app.git") =
        .ok (lit "git@example.com:srv/app.git", lit "app") := by
  decide

end Centaurx
