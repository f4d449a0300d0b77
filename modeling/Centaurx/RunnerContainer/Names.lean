import Centaurx.Core.Sections
import Centaurx.Lib.Words
import Centaurx.Paths.Tenants
import Centaurx.RunnerContainer.Provider

namespace Centaurx.RunnerContainer
open Go List Function

def lowerHex (b : UInt8) : Bool :=
  (0x30 ≤ b.toNat && b.toNat ≤ 0x39) || (0x61 ≤ b.toNat && b.toNat ≤ 0x66)

/-- The tabs for which runners are asked: those with an id of `newID`, and the one of shell commands
without a tab. -/
def runnerTab (tab : TabID) : Bool :=
  (tab.length = 16 && tab.all lowerHex) || tab = lit "system-shell"

theorem lowerHex_hexDigit {n : ℕ} (hn : n < 16) : lowerHex (hexDigit n) = true := by
  interval_cases n <;> decide

theorem length_hexEncode (bs : List UInt8) : (hexEncode bs).length = 2 * bs.length := by
  induction bs with
  | nil => rfl
  | cons b bs ih =>
    rw [hexEncode] at ih ⊢
    rw [flatMap_cons, length_append, ih]
    simp only [length_cons, length_nil]
    omega

theorem runnerTab_newID (buf) : runnerTab (newID (some buf)) = true := by
  have hall : ∀ b ∈ hexEncode buf.toList, lowerHex b = true := by
    intro b hb
    simp only [hexEncode, mem_flatMap, mem_cons, not_mem_nil, or_false] at hb
    obtain ⟨b', -, rfl | rfl⟩ := hb
    · have hlt := b'.toNat_lt
      exact lowerHex_hexDigit (by omega)
    · exact lowerHex_hexDigit (Nat.mod_lt _ (by decide))
  simp only [runnerTab, newID, length_hexEncode, all_eq_true.mpr hall, Vector.length_toList,
    decide_true, Bool.and_self, Bool.true_or]

theorem sanitizeName_eq {s : GoString} (h : ∀ b ∈ s, userByte b = true) (hne : s ≠ []) :
    sanitizeName s = s := by
  have hname : (runes s).map (fun r : ℕ × ℕ =>
      if (0x61 ≤ r.1 ∧ r.1 ≤ 0x7A) ∨ (0x41 ≤ r.1 ∧ r.1 ≤ 0x5A) ∨ (0x30 ≤ r.1 ∧ r.1 ≤ 0x39) ∨
        r.1 = 0x2D ∨ r.1 = 0x5F ∨ r.1 = 0x2E then UInt8.ofNat r.1 else 0x5F) = s := by
    rw [runes_ascii fun b hb => userByte_lt (h b hb), map_map]
    refine (map_congr_left fun b hb => ?_).trans (map_id s)
    have hbyte := h b hb
    simp only [userByte, Bool.or_eq_true, Bool.and_eq_true, decide_eq_true_eq] at hbyte
    rw [comp_apply, if_pos (by dsimp only; omega)]
    exact UInt8.ofNat_toNat
  rw [sanitizeName, hname]
  exact if_neg hne

theorem trimSpace_userBytes {s : GoString} (h : ∀ b ∈ s, userByte b = true) : trimSpace s = s := by
  apply trimSpace_of_spaceFree
  rw [spaceFree, runes_ascii fun b hb => userByte_lt (h b hb), all_map, all_eq_true]
  intro b hb
  have hbyte := h b hb
  simp only [userByte, Bool.or_eq_true, Bool.and_eq_true, decide_eq_true_eq] at hbyte
  simp only [isSpace, comp_apply, Bool.not_eq_true', Bool.or_eq_false_iff,
    Bool.and_eq_false_iff, decide_eq_false_iff_not]
  omega

section

variable {user user' : UserID} {tab tab' : TabID}

theorem runnerTab_bytes (h : runnerTab tab = true) : ∀ b ∈ tab, userByte b = true := by
  simp only [runnerTab, Bool.or_eq_true, Bool.and_eq_true, decide_eq_true_eq,
    all_eq_true] at h
  rcases h with ⟨-, hhex⟩ | rfl
  · intro b hb
    have hbyte := hhex b hb
    simp only [lowerHex, Bool.or_eq_true, Bool.and_eq_true, decide_eq_true_eq] at hbyte
    simp only [userByte, Bool.or_eq_true, Bool.and_eq_true, decide_eq_true_eq]
    omega
  · decide

theorem runnerTab_ne_nil (h : runnerTab tab = true) : tab ≠ [] := by
  rintro rfl
  cases h

theorem containerName_tab (cfg : Config) (huser : validateUserID user = true)
    (htab : runnerTab tab = true) : containerName cfg ⟨user, tab⟩ =
      cfg.namePrefix ++ lit "-" ++ user ++ lit "-" ++ tab := by
  have hbytes := runnerTab_bytes htab
  have hne := runnerTab_ne_nil htab
  simp only [containerName, trimSpace_userBytes hbytes, if_neg hne, sanitizeName_eq hbytes hne,
    sanitizeName_eq (validateUserID_bytes huser) (validateUserID_ne_nil huser)]

theorem containerName_user (cfg : Config) (huser : validateUserID user = true) :
    containerName cfg ⟨user, []⟩ = cfg.namePrefix ++ lit "-" ++ user := by
  have hblank : trimSpace ([] : GoString) = [] := rfl
  simp only [containerName, hblank, if_true,
    sanitizeName_eq (validateUserID_bytes huser) (validateUserID_ne_nil huser)]

theorem hex_ne_shell {pre pre' : GoString} (hlen : tab.length = 16)
    (hhex : tab.all lowerHex = true) : pre ++ tab ≠ pre' ++ lit "system-shell" := by
  intro h
  have hne : tab ≠ [] := ne_nil_of_length_pos (by omega)
  have hlast := congrArg getLast? h
  rw [getLast?_append_of_ne_nil _ hne, getLast?_append_of_ne_nil _ (by decide),
    getLast?_eq_some_getLast hne] at hlast
  have hend := all_eq_true.mp hhex _ (getLast_mem hne)
  rw [Option.some.inj hlast] at hend
  exact absurd hend (by decide)

/-- The id of a tab can be told from what is before it. -/
theorem append_runnerTab_inj {pre pre' : GoString} (htab : runnerTab tab = true)
    (htab' : runnerTab tab' = true) (h : pre ++ tab = pre' ++ tab') : pre = pre' ∧ tab = tab' := by
  simp only [runnerTab, Bool.or_eq_true, Bool.and_eq_true, decide_eq_true_eq] at htab htab'
  rcases htab with ⟨hlen, hhex⟩ | rfl
  · rcases htab' with ⟨hlen', -⟩ | rfl
    · exact append_inj' h (hlen.trans hlen'.symm)
    · exact absurd h (hex_ne_shell hlen hhex)
  · rcases htab' with ⟨hlen', hhex'⟩ | rfl
    · exact absurd h.symm (hex_ne_shell hlen' hhex')
    · exact append_inj' h rfl

end

/-- The name of a container tells the user and, where every tab has its own container, the tab. A
start never finds the container of another key. -/
theorem containerName_unique (cfg : Config) (user user' : UserID) (tab tab' : TabID)
    (huser : validateUserID user = true) (huser' : validateUserID user' = true)
    (htab : cfg.scope = .tab → runnerTab tab = true)
    (htab' : cfg.scope = .tab → runnerTab tab' = true)
    (hkey : keyFor cfg user tab ≠ keyFor cfg user' tab') :
    containerName cfg (keyFor cfg user tab) ≠ containerName cfg (keyFor cfg user' tab') ∧
      ∀ (s : Provider) (c : ℕ), c < s.created →
        (s.containers c).name = containerName cfg (keyFor cfg user' tab') →
          s.ensured cfg (containerName cfg (keyFor cfg user tab)) ≠ c := by
  have hname : containerName cfg (keyFor cfg user tab) ≠
      containerName cfg (keyFor cfg user' tab') := by
    intro h
    apply hkey
    cases hscope : cfg.scope with
    | user =>
      simp only [keyFor, hscope] at h ⊢
      rw [containerName_user cfg huser, containerName_user cfg huser'] at h
      rw [append_cancel_left h]
    | tab =>
      simp only [keyFor, hscope] at h ⊢
      rw [containerName_tab cfg huser (htab hscope),
        containerName_tab cfg huser' (htab' hscope)] at h
      obtain ⟨hfront, rfl⟩ := append_runnerTab_inj (htab hscope) (htab' hscope) h
      rw [append_cancel_left (append_cancel_right hfront)]
  refine ⟨hname, fun s c hc hother hfound => ?_⟩
  rw [Provider.ensured] at hfound
  cases hfind : (range s.created).find? fun c => (s.containers c).name =
      containerName cfg (keyFor cfg user tab) ∧
        (cfg.namesAreIDs ∨ (s.containers c).state ≠ .removed) with
  | none =>
    rw [hfind, Option.getD_none] at hfound
    omega
  | some c' =>
    have hsome := find?_some hfind
    rw [hfind, Option.getD_some] at hfound
    rw [hfound, decide_eq_true_eq, hother] at hsome
    exact hname hsome.1.symm

/-- User ids with dashes, and the two kinds of tabs. -/
theorem containerName_unique_dashes :
    containerName tabConfig (keyFor tabConfig (lit "a-system") (lit "0123456789abcdef")) ≠
      containerName tabConfig (keyFor tabConfig (lit "a") (lit "system-shell")) :=
  (containerName_unique tabConfig (lit "a-system") (lit "a") (lit "0123456789abcdef")
    (lit "system-shell") (by decide) (by decide) (fun _ => by decide) (fun _ => by decide)
    (by decide)).1

end Centaurx.RunnerContainer
