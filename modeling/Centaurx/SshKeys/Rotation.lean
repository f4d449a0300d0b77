import Centaurx.Lib.Script
import Centaurx.Schema

namespace Centaurx.SshKeys
open Go Script List

/-- A private key as it is encrypted with a data key. -/
structure Sealed (Key Dek : Type) where
  dek : Dek
  key : Key
  deriving DecidableEq

/-- The files of one user. -/
structure Files (Key Dek : Type) where
  descriptor : Option Dek := none
  privateKey : Option (Sealed Key Dek) := none
  publicKey : Option GoString := none
  deriving DecidableEq

variable {Key Dek : Type}

inductive Op
  | generate | marshal | loadProto | ensureRootKey | mintDEK | setDescriptor | ensureDescriptor
  | commit | mkdirAll | createTemp | chmod | encryptWriter | copy | closeWriter | rename
  | newSigner | writePublic
  deriving DecidableEq

/-- How an operation fails: for the file that is written in place, how many bytes it has got, if
it has been truncated at all. -/
abbrev Damage := Option ℕ

inductive KeyError
  | usernameRequired
  | rsaBits
  | unsupported (keyType : GoString)
  | operation (op : Op)
  deriving DecidableEq

structure Request where
  username : GoString
  keyType : GoString
  bits : ℤ

def defaultRSABits : ℤ := 3072

/-- The checks of the key type before a key is generated. -/
def checkKeyType (uni : Unicode) (req : Request) : Except KeyError Unit :=
  let keyType := uni.toLower (trimSpace req.keyType)
  let keyType := if keyType = [] then lit "ed25519" else keyType
  if keyType = lit "ed25519" then .ok ()
  else if keyType = lit "rsa" then
    let bits := if req.bits = 0 then defaultRSABits else req.bits
    if bits < 2048 then .error .rsaBits else .ok ()
  else .error (.unsupported keyType)

/-- The data key of `materialForUser`, where `minted` is a new one. -/
def material (rotate : Bool) (minted : Dek) (files : Files Key Dek) : Dek :=
  if rotate then minted else files.descriptor.getD minted

def materialForUser (rotate : Bool) (dek : Dek) : List (Step Op Damage (Files Key Dek)) :=
  ([Op.loadProto, .ensureRootKey] ++
      if rotate then [Op.mintDEK, .setDescriptor] else [Op.ensureDescriptor]).map Step.check ++
    [⟨.commit, fun files => some { files with descriptor := some dek }, fun _ => id⟩]

/-- The operations that replace the private and the public key. -/
def replaceKey (pub : Key → GoString) (priv : Key) (dek : Dek) :
    List (Step Op Damage (Files Key Dek)) :=
  [Op.mkdirAll, .createTemp, .chmod, .encryptWriter, .copy, .closeWriter].map Step.check ++
    -- the private key is renamed into its place, the public key is written in place
    [⟨.rename, fun files => some { files with privateKey := some ⟨dek, priv⟩ }, fun _ => id⟩,
      .check .newSigner,
      ⟨.writePublic, fun files => some { files with publicKey := some (pub priv) },
        fun damage files => match damage with
          | none => files
          | some n => { files with publicKey := some ((pub priv).take n) }⟩]

/-- `priv` is the generated key and `minted` the new data key. -/
def writeKey (uni : Unicode) (pub : Key → GoString) (req : Request) (rotate : Bool) (priv : Key)
    (minted : Dek) (fails : Op → Option Damage) (files : Files Key Dek) :
    Except KeyError GoString × Files Key Dek :=
  if blank req.username then (.error .usernameRequired, files)
  else
    match checkKeyType uni req with
    | .error err => (.error err, files)
    | .ok () =>
      let dek := material rotate minted files
      match run fails ([Op.generate, .marshal].map Step.check ++ materialForUser rotate dek ++
          replaceKey pub priv dek) files with
      | (none, files) => (.ok (trimSpace (pub priv)), files)
      | (some op, files) => (.error (.operation op), files)

def rotateKey (uni : Unicode) (pub : Key → GoString) (req : Request) (priv : Key) (minted : Dek)
    (fails : Op → Option Damage) (files : Files Key Dek) :
    Except KeyError GoString × Files Key Dek :=
  writeKey uni pub req true priv minted fails files

inductive LoadError
  | notExist | decrypt
  deriving DecidableEq

section Load
variable [DecidableEq Dek]

/-- `LoadPrivateKey`, if its own operations succeed. A missing descriptor is minted. -/
def loadPrivateKey (minted : Dek) (files : Files Key Dek) :
    Except LoadError Key × Files Key Dek :=
  match files.privateKey with
  | none => (.error .notExist, files)
  | some file =>
    let dek := material false minted files
    (if file.dek = dek then .ok file.key else .error .decrypt,
      { files with descriptor := some dek })

/-- `LoadPublicKey`, if its own operations succeed. -/
def loadPublicKey (pub : Key → GoString) (minted : Dek) (files : Files Key Dek) :
    Except LoadError GoString × Files Key Dek :=
  match files.publicKey with
  | some data => (.ok (trimSpace data), files)
  | none =>
    let (key, files) := loadPrivateKey minted files
    (key.map fun key => trimSpace (pub key), files)

/-- Both loads succeed, and the public key is that of the private key. -/
def Loads (pub : Key → GoString) (files : Files Key Dek) (key : Key) : Prop :=
  ∀ minted, (loadPrivateKey minted files).1 = .ok key ∧
    (loadPublicKey pub minted files).1 = .ok (trimSpace (pub key))

theorem loads_of_files {pub : Key → GoString} {key : Key} {dek : Dek} :
    Loads pub ⟨some dek, some ⟨dek, key⟩, some (pub key)⟩ key := by
  intro minted
  simp [loadPrivateKey, loadPublicKey, material]

end Load

/-- The operations up to the commit of the descriptor. -/
def upToCommit : List Op :=
  [.generate, .marshal, .loadProto, .ensureRootKey, .mintDEK, .setDescriptor, .commit]

def afterCommit : List Op :=
  [.mkdirAll, .createTemp, .chmod, .encryptWriter, .copy, .closeWriter, .rename, .newSigner,
    .writePublic]

/-- If the commit is reached and succeeds, then so do all operations after it. -/
def CommitIsLast (fails : Op → Option Damage) : Prop :=
  (∀ op ∈ upToCommit, fails op = none) → ∀ op ∈ afterCommit, fails op = none

/-- The request is refused before the first operation. -/
def Refused (uni : Unicode) (req : Request) : Prop :=
  blank req.username = true ∨ ∃ err, checkKeyType uni req = .error err

/-- What `RotateKey` returns and leaves: after an error the old key, after a success the new one. -/
def AllOrNothing [DecidableEq Dek] (pub : Key → GoString) (old priv : Key)
    (out : Except KeyError GoString × Files Key Dek) : Prop :=
  match out.1 with
  | .error _ => Loads pub out.2 old
  | .ok text => text = trimSpace (pub priv) ∧ Loads pub out.2 priv

section Rotate
variable {fails : Op → Option Damage} {files : Files Key Dek}

theorem run_upToCommit (fails : Op → Option Damage) (files : Files Key Dek) (dek : Dek) :
    (∃ op ∈ upToCommit, fails op ≠ none ∧
      run fails ([Op.generate, .marshal].map Step.check ++ materialForUser true dek) files =
        (some op, files)) ∨
      (∀ op ∈ upToCommit, fails op = none) ∧
        run fails ([Op.generate, .marshal].map Step.check ++ materialForUser true dek) files =
          (none, { files with descriptor := some dek }) := by
  have hsteps : ([Op.generate, .marshal].map Step.check ++ materialForUser true dek :
      List (Step Op Damage (Files Key Dek))) =
        [Op.generate, .marshal, .loadProto, .ensureRootKey, .mintDEK, .setDescriptor].map
          Step.check ++
        [⟨.commit, fun files => some { files with descriptor := some dek }, fun _ => id⟩] := rfl
  have hops : upToCommit = [Op.generate, .marshal, .loadProto, .ensureRootKey, .mintDEK,
      .setDescriptor] ++ [.commit] := rfl
  rw [hsteps, hops, run_append, run_checks]
  cases hfind : [Op.generate, .marshal, .loadProto, .ensureRootKey, .mintDEK,
      .setDescriptor].find? fun op => (fails op).isSome with
  | some op =>
    refine .inl ⟨op, mem_append_left _ (mem_of_find?_eq_some hfind), ?_, rfl⟩
    exact Option.ne_none_iff_isSome.mpr (by simpa using find?_some hfind)
  | none =>
    cases hcommit : fails .commit with
    | some how => exact .inl ⟨.commit, by simp, by simp [hcommit], by simp [run, hcommit]⟩
    | none =>
      refine .inr ⟨?_, by simp [run, hcommit]⟩
      rw [find?_eq_none] at hfind
      intro op hop
      rcases mem_append.mp hop with hop | hop
      · simpa using hfind op hop
      · rw [mem_singleton.mp hop, hcommit]

theorem run_afterCommit (pub : Key → GoString) (priv : Key) (dek : Dek)
    (h : ∀ op ∈ afterCommit, fails op = none) :
    run fails (replaceKey pub priv dek) files =
      (none, ⟨files.descriptor, some ⟨dek, priv⟩, some (pub priv)⟩) := by
  simp only [afterCommit, forall_mem_cons] at h
  simp [replaceKey, run, Step.check, h]

/-- The private key is the one before or the new one, whatever fails. -/
theorem run_replaceKey_files (fails : Op → Option Damage) (pub : Key → GoString) (priv : Key)
    (dek : Dek) (files : Files Key Dek) :
    (run fails (replaceKey pub priv dek) files).2.descriptor = files.descriptor ∧
      ((run fails (replaceKey pub priv dek) files).2.privateKey = files.privateKey ∨
        (run fails (replaceKey pub priv dek) files).2.privateKey = some ⟨dek, priv⟩) := by
  refine run_invariant (P := fun f : Files Key Dek => f.descriptor = files.descriptor ∧
    (f.privateKey = files.privateKey ∨ f.privateKey = some ⟨dek, priv⟩)) ?_ ?_ ⟨rfl, .inl rfl⟩
  · intro step hstep s s' hs hact
    simp only [replaceKey, map_cons, map_nil, cons_append, nil_append,
      mem_cons, not_mem_nil, or_false] at hstep
    rcases hstep with rfl | rfl | rfl | rfl | rfl | rfl | rfl | rfl | rfl <;>
      cases hact <;> simp_all
  · intro step hstep how s hs
    simp only [replaceKey, map_cons, map_nil, cons_append, nil_append,
      mem_cons, not_mem_nil, or_false] at hstep
    rcases hstep with rfl | rfl | rfl | rfl | rfl | rfl | rfl | rfl | rfl <;>
      cases how <;> exact hs

theorem afterCommit_of_run {pub : Key → GoString} {priv : Key} {dek : Dek}
    (h : (run fails (replaceKey pub priv dek) files).1 = none) :
    ∀ op ∈ afterCommit, fails op = none := by
  have hops : afterCommit = (replaceKey pub priv dek).map Step.op := rfl
  rw [hops, forall_mem_map]
  exact fails_of_run h

theorem writeKey_of_refused {uni : Unicode} {req : Request} (h : Refused uni req)
    (pub : Key → GoString) (rotate : Bool) (priv : Key) (minted : Dek)
    (fails : Op → Option Damage) :
    ∃ err, writeKey uni pub req rotate priv minted fails files = (.error err, files) := by
  rw [writeKey]
  split_ifs with hname
  · exact ⟨_, rfl⟩
  · obtain ⟨err, herr⟩ := h.resolve_left hname
    exact ⟨err, by rw [herr]⟩

variable [DecidableEq Dek]

/-- Under a new data key the old private key is not loaded, nor from the file of another. -/
theorem not_loads_of_minted {pub : Key → GoString} {priv old : Key} {minted : Dek}
    (hdescriptor : files.descriptor = some minted) (hpriv : priv ≠ old)
    (hkey : (∀ file ∈ files.privateKey, file.dek ≠ minted) ∨
      files.privateKey = some ⟨minted, priv⟩) : ¬ Loads pub files old := by
  intro hloads
  have hload := (hloads minted).1
  cases hfile : files.privateKey with
  | none => simp [loadPrivateKey, hfile] at hload
  | some file =>
    simp only [loadPrivateKey, hfile, material, hdescriptor, Option.getD_some] at hload
    rcases hkey with hsealed | hnew
    · simp [hsealed file hfile] at hload
    · obtain rfl := Option.some.inj (hfile.symm.trans hnew)
      simp [hpriv] at hload

/-- **Rotation is all or nothing**, for a new key and a new data key, if and only if the request is
refused or no operation after the commit fails: after an error the old key is loaded, with its
public key, and after a success the new one. -/
theorem rotateKey_all_or_nothing (uni : Unicode) (pub : Key → GoString) (req : Request)
    (priv : Key) (minted : Dek) {old : Key} (hold : Loads pub files old) (hpriv : priv ≠ old)
    (hminted : ∀ file ∈ files.privateKey, file.dek ≠ minted) :
    AllOrNothing pub old priv (rotateKey uni pub req priv minted fails files) ↔
      Refused uni req ∨ CommitIsLast fails := by
  by_cases hreq : Refused uni req
  · obtain ⟨err, hwrite⟩ := writeKey_of_refused hreq pub true priv minted fails
    rw [rotateKey, hwrite]
    exact iff_of_true hold (.inl hreq)
  rw [or_iff_right hreq]
  have hname : ¬ blank req.username = true := fun h => hreq (.inl h)
  cases hcheck : checkKeyType uni req with
  | error err => exact absurd (.inr ⟨err, hcheck⟩) hreq
  | ok =>
    simp only [rotateKey, writeKey, if_neg hname, hcheck, material, if_true]
    rw [run_append]
    -- before the commit no file has changed
    rcases run_upToCommit fails files minted with ⟨op, hop, hfail, hrun⟩ | ⟨hok, hrun⟩
    · rw [hrun]
      exact iff_of_true hold fun hall => absurd (hall op hop) hfail
    rw [hrun]
    dsimp only
    by_cases hall : ∀ op ∈ afterCommit, fails op = none
    · rw [run_afterCommit pub priv minted hall]
      exact iff_of_true ⟨rfl, loads_of_files⟩ fun _ => hall
    · -- after it neither the old key nor a new one is whole
      obtain ⟨hdescriptor, hprivateKey⟩ := run_replaceKey_files fails pub priv minted
        { files with descriptor := some minted }
      refine iff_of_false ?_ fun h => hall (h hok)
      cases hfailed : run fails (replaceKey pub priv minted)
          { files with descriptor := some minted } with
      | mk failed left =>
        rw [hfailed] at hdescriptor hprivateKey
        cases failed with
        | none => exact absurd (afterCommit_of_run (congrArg Prod.fst hfailed)) hall
        | some op =>
          refine not_loads_of_minted hdescriptor hpriv (hprivateKey.imp_left fun hsame => ?_)
          rw [hsame]
          exact hminted

end Rotate

def samplePublic (key : UInt8) : GoString := [key, 0x0A]

def sampleFiles : Files UInt8 ℕ := ⟨some 0, some ⟨0, 0x61⟩, some (samplePublic 0x61)⟩

/-- The name that fails. -/
def failing (op : Op) (damage : Damage) : Op → Option Damage :=
  fun name => if name = op then some damage else none

def sampleRotate (fails : Op → Option Damage) : Except KeyError GoString × Files UInt8 ℕ :=
  rotateKey .ascii samplePublic ⟨lit "alice", [], 0⟩ 0x62 1 fails sampleFiles

theorem loads_sampleFiles : Loads samplePublic sampleFiles 0x61 := loads_of_files

/-- The commit fails. -/
theorem rotateKey_all_or_nothing_commit :
    AllOrNothing samplePublic 0x61 0x62 (sampleRotate (failing .commit none)) :=
  (rotateKey_all_or_nothing .ascii samplePublic ⟨lit "alice", [], 0⟩ 0x62 1 loads_sampleFiles
    (by decide) (by decide)).mpr (.inr fun h => absurd (h .commit (by decide)) (by decide))

/-- A temporary file that cannot be created leaves the old private key under a descriptor of
another data key. A public key that cannot be written leaves the new private key with the old
public key, or with a part of its own. -/
theorem rotateKey_leaves_mixture :
    (sampleRotate (failing .createTemp none)).1 = .error (.operation .createTemp) ∧
      (loadPrivateKey 2 (sampleRotate (failing .createTemp none)).2).1 = .error .decrypt ∧
    (sampleRotate (failing .writePublic none)).1 = .error (.operation .writePublic) ∧
      (loadPrivateKey 2 (sampleRotate (failing .writePublic none)).2).1 = .ok 0x62 ∧
      (loadPublicKey samplePublic 2 (sampleRotate (failing .writePublic none)).2).1 =
        .ok (trimSpace (samplePublic 0x61)) ∧
      (loadPublicKey samplePublic 2 (sampleRotate (failing .writePublic (some 0))).2).1 =
        .ok [] := by decide

end Centaurx.SshKeys
