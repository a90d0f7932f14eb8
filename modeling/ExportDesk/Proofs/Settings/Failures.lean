import ExportDesk.Proofs.Settings.Store

/-!
# Operations that fail

Every operation on the settings file first reads and then may replace the file (`plan`, `run_plan`).
`Operation.failures_safe`: one that fails has kept the file; if it failed at reading, the settings
in memory too; and cut short between two steps of writing, it has kept the file or given it the
whole new content. All this is so unless the temporary file is the file itself under another name,
and `not_failsCleanly` shows that it must be another.
-/

namespace ExportDesk

open Text

namespace SettingsStore

/-- The operations that read or write the settings file. -/
inductive Operation where
  | load
  | loadOrCreate
  | save
  | updateSection (part : SettingsSection)
deriving DecidableEq, Repr

namespace Operation

/-- Runs the operation; those that only write keep the settings in memory. -/
def run (store : SettingsStore) : Operation → OnHost (Except SettingsError Unit × SettingsStore)
  | .load => store.load
  | .loadOrCreate => store.loadOrCreate
  | .save => do return (← store.save, store)
  | .updateSection part => do return (← store.updateSection part, store)

/-- What an operation is about to do once it has read: the settings in memory from now on, and the
text to write, if any. -/
structure Plan where
  settings : Settings
  text : Option String

/-- Reads and parses what the operation needs. -/
def plan (store : SettingsStore) (h : Host) : Operation → Except SettingsError Plan
  | .load =>
    if h.files.exists? store.path then
      match store.readFile h.files with
      | .error e => .error e
      | .ok text =>
        match SettingsText.read h.environment text with
        | none => .error .malformed
        | some s => .ok ⟨s, none⟩
    else .error (.notFound store.path)
  | .loadOrCreate =>
    if h.files.exists? store.path then
      match store.readFile h.files with
      | .error e => .error e
      | .ok text =>
        (examine h.environment text).map fun (s, incomplete) =>
          ⟨s, if incomplete then some (SettingsText.write s) else none⟩
    else
      let s := Settings.fresh h.environment
      .ok ⟨s, some (SettingsText.write s)⟩
  | .save => .ok ⟨store.settings, some (SettingsText.write store.settings)⟩
  | .updateSection part =>
    match (if h.files.exists? store.path then store.readFile h.files else .ok "") with
    | .error e => .error e
    | .ok text =>
      (revise text store.settings part).map fun new => ⟨store.settings, some new⟩

end Operation

/-- What comes of a plan: nothing happens if there is none, otherwise the store takes over its
settings and the file is replaced by its text. -/
def Carries (store : SettingsStore) (h : Host)
    (out : (Except SettingsError Unit × SettingsStore) × Host) :
    Except SettingsError Operation.Plan → Prop
  | .error e => out = ((.error e, store), h)
  | .ok ⟨s, none⟩ => out = ((.ok (), { store with settings := s }), h)
  | .ok ⟨s, some text⟩ =>
    let written := (Disk.replaceFile store.path (encode text)).run.run h.files
    out.1 = (written.1.mapError .inaccessible, { store with settings := s }) ∧
      out.2.files = written.2

variable {store : SettingsStore} {h : Host}

theorem carries_load (store : SettingsStore) (h : Host) :
    Carries store h (store.load.run h) (Operation.load.plan store h) := by
  unfold Operation.plan load readFile
  cases hexists : h.files.exists? store.path with
  | false =>
    simp [hexists]
    rfl
  | true =>
    cases htext : h.files.readText store.path with
    | error e =>
      simp [hexists, htext, Except.mapError]
      rfl
    | ok text =>
      cases hs : SettingsText.read h.environment text with
      | none =>
        simp [hexists, htext, Except.mapError, hs]
        rfl
      | some s =>
        simp [hexists, htext, Except.mapError, hs]
        rfl

theorem carries_loadOrCreate (store : SettingsStore) (h : Host) :
    Carries store h (store.loadOrCreate.run h) (Operation.loadOrCreate.plan store h) := by
  unfold Operation.plan
  cases hexists : h.files.exists? store.path with
  | false =>
    obtain ⟨noted, -, hfiles, hrun⟩ := loadOrCreate_absent hexists rfl
    rw [hrun]
    exact ⟨rfl, hfiles⟩
  | true =>
    simp only [if_true]
    cases hread : store.readFile h.files with
    | error e =>
      unfold loadOrCreate
      simp [hexists, hread]
      rfl
    | ok text =>
      cases hex : examine h.environment text with
      | error e =>
        unfold loadOrCreate
        simp [hexists, hread, hex]
        rfl
      | ok found =>
        obtain ⟨s, b⟩ := found
        cases b with
        | false =>
          unfold loadOrCreate
          simp [hexists, hread, hex]
          rfl
        | true =>
          unfold loadOrCreate
          simp [hexists, hread, hex]
          exact ⟨rfl, rfl⟩

theorem carries_updateSection (store : SettingsStore) (h : Host) (part : SettingsSection) :
    Carries store h (((Operation.updateSection part).run store).run h)
      ((Operation.updateSection part).plan store h) := by
  unfold Operation.plan Operation.run updateSection
  simp only [StateT.run_bind, StateT.run_get]
  cases hread : (if h.files.exists? store.path then store.readFile h.files else .ok "") with
  | error e =>
    simp [hread]
    rfl
  | ok text =>
    cases hrevise : revise text store.settings part with
    | error e =>
      simp [hread, hrevise]
      rfl
    | ok new =>
      simp [hread, hrevise]
      exact ⟨rfl, rfl⟩

/-- **Every operation does what it planned.** -/
theorem Operation.carries (op : Operation) (store : SettingsStore) (h : Host) :
    Carries store h ((op.run store).run h) (op.plan store h) := by
  cases op with
  | load => exact carries_load store h
  | loadOrCreate => exact carries_loadOrCreate store h
  | save => exact ⟨rfl, rfl⟩
  | updateSection part => exact carries_updateSection store h part

/-- What an operation has done that succeeded: it had a plan, and the file has the planned text. -/
theorem Operation.done_of_ok (ht : h.files.IsTree) {op : Operation} {store' : SettingsStore}
    {h' : Host} (hrun : (op.run store).run h = ((.ok (), store'), h')) :
    ∃ plan, op.plan store h = .ok plan ∧ store' = { store with settings := plan.settings } ∧
      h'.files.IsTree ∧
      ∀ text, plan.text = some text → h'.files.fileAt? store.path = some (encode text) := by
  have hcarries := op.carries store h
  rw [hrun] at hcarries
  cases hplan : op.plan store h with
  | error e =>
    rw [hplan] at hcarries
    cases hcarries
  | ok plan =>
    obtain ⟨s, text⟩ := plan
    rw [hplan] at hcarries
    cases text with
    | none =>
      cases hcarries
      exact ⟨_, rfl, rfl, ht, fun _ htext => by cases htext⟩
    | some text =>
      obtain ⟨hresult, hfiles⟩ := hcarries
      cases hwrite : (Disk.replaceFile store.path (encode text)).run.run h.files with
      | mk r fs' =>
        rw [hwrite] at hresult hfiles
        obtain ⟨⟨cause, rfl⟩, -⟩ | ⟨rfl, hfile, ht', -⟩ := Disk.replaceFile_cases ht hwrite
        · cases hresult
        · rw [hfiles]
          refine ⟨_, rfl, (Prod.mk.inj hresult).2, ht', fun text' htext => ?_⟩
          obtain rfl := Option.some.inj htext
          exact hfile

/-! ## Failures -/

/-- What an operation fails at is in its plan, or it is the writing of the planned text, which keeps
the file, or the place where none was. -/
theorem Operation.cause_of_error {op : Operation} {e : SettingsError} {store' : SettingsStore}
    {h' : Host} (hrun : (op.run store).run h = ((.error e, store'), h')) :
    op.plan store h = .error e ∧ h' = h ∨
      ∃ s text cause, op.plan store h = .ok ⟨s, some text⟩ ∧
        (Disk.replaceFile store.path (encode text)).run.run h.files = (.error cause, h'.files) := by
  have hcarries := op.carries store h
  rw [hrun] at hcarries
  cases hplan : op.plan store h with
  | error e' =>
    rw [hplan] at hcarries
    cases hcarries
    exact .inl ⟨rfl, rfl⟩
  | ok plan =>
    obtain ⟨s, text⟩ := plan
    rw [hplan] at hcarries
    cases text with
    | none => cases hcarries
    | some text =>
      obtain ⟨hresult, hfiles⟩ := hcarries
      refine .inr ⟨s, text, ?_⟩
      cases hwrite : (Disk.replaceFile store.path (encode text)).run.run h.files with
      | mk r fs' =>
        rw [hwrite] at hresult hfiles
        obtain rfl : h'.files = fs' := hfiles
        cases r with
        | error cause => exact ⟨cause, rfl, rfl⟩
        | ok _ => cases hresult

theorem run_of_error {out : (Except SettingsError Unit × SettingsStore) × Host} {e : SettingsError}
    (h : out.1.1 = .error e) : out = ((.error e, out.1.2), out.2) := by
  rw [← h]

/-- The file that a path names is as it was, or there is still none. Only a path that goes up from
a folder that was missing may come to lead to a file that it did not lead to before. -/
structure Untouched (p : Path) (fs fs' : FileSystem) : Prop where
  content : fs'.contentAt? (fs.target p) = fs.contentAt? (fs.target p)
  found : ∀ c, fs.fileAt? p = some c → fs'.fileAt? p = some c
  same : [Path.dot, Path.dot] ∉ p.segments → fs'.fileAt? p = fs.fileAt? p

theorem untouched_of_keeps {p : Path} {fs fs' : FileSystem} (hs : fs.IsSound)
    (hk : fs.Keeps p fs') : Untouched p fs fs' :=
  ⟨hk.content, fun _ => hk.found, hk.fileAt? hs⟩

/-- **Failures are safe.** An operation that fails leaves the file untouched, and when it fails at
reading or parsing, not at writing, also the settings in memory and everything else. Cut short after
any number of the steps by which it writes, it has left the file untouched, or it has come to the
end and the file has the whole new content. For that the temporary file must be another than the
file, which it always is by its location, and, through links, by what it leads to. -/
theorem Operation.failures_safe (hs : h.files.IsSound) (store : SettingsStore) (op : Operation) :
    (∀ e store' h', (op.run store).run h = ((.error e, store'), h') →
      (op.plan store h = .error e ∨ ∃ s text cause, op.plan store h = .ok ⟨s, some text⟩ ∧
        ((Disk.replaceFile store.path (encode text)).run.run h.files).1 = .error cause) ∧
      (ReplaceStep.IsApart store.path h.files → Untouched store.path h.files h'.files)) ∧
    (∀ e, op.plan store h = .error e → (op.run store).run h = ((.error e, store), h)) ∧
    (∀ s text, op.plan store h = .ok ⟨s, some text⟩ →
      let after := ReplaceStep.after store.path (encode text) h.files
      ((op.run store).run h).2.files = after ReplaceStep.all.length ∧
        (ReplaceStep.IsApart store.path h.files → ∀ n,
          Untouched store.path h.files (after n) ∨
            ReplaceStep.all.length ≤ n ∧
              ReplaceStep.Renewed store.path (encode text) h.files (after n))) ∧
    (∀ name, store.path.fileName = some name →
      ∀ fs : FileSystem, fs.target (ReplaceStep.temporary store.path) ≠ fs.target store.path) := by
  refine ⟨fun e store' h' hrun => ?_, fun e hplan => ?_, fun s text hplan => ?_,
    fun name hname fs => ReplaceStep.target_temporary_ne hname fs⟩
  · obtain ⟨hplan, rfl⟩ | ⟨s, text, cause, hplan, hwrite⟩ := cause_of_error hrun
    · exact ⟨.inl hplan, fun _ => untouched_of_keeps hs (.refl _ _)⟩
    · refine ⟨.inr ⟨s, text, cause, hplan, by rw [hwrite]⟩, fun ha => ?_⟩
      obtain ⟨-, hkeeps⟩ | ⟨hok, -⟩ := Disk.replaceFile_renewed hs ha hwrite
      · exact untouched_of_keeps hs hkeeps
      · cases hok
  · have hcarries := op.carries store h
    rwa [hplan] at hcarries
  · have hcarries := op.carries store h
    rw [hplan] at hcarries
    refine ⟨hcarries.2, fun ha n => ?_⟩
    obtain hkeeps | hnew := Disk.interrupted_replaceFile hs ha (encode text) n
    · exact .inl (untouched_of_keeps hs hkeeps)
    · exact .inr hnew

/-- A host on which nothing can be renamed. -/
def hostWithoutMoves : Host :=
  let h := Host.holding "[tool]\nprogram = \"mine\"\n"
  { h with files := { h.files with refuses := fun
      | .rename _ _ => some .permissionDenied
      | _ => none } }

theorem failures_safe_unmoved :
    ∃ e store' h', (Operation.loadOrCreate.run (.ofPath {} (.ofText "s.toml"))).run
        hostWithoutMoves = ((.error e, store'), h') ∧
      h'.files.fileAt? (.ofText "s.toml") = hostWithoutMoves.files.fileAt? (.ofText "s.toml") := by
  let run := (Operation.loadOrCreate.run (.ofPath {} (.ofText "s.toml"))).run hostWithoutMoves
  have herror : run.1.1 = .error (.inaccessible .permissionDenied) := by decide +kernel
  have hrun := run_of_error herror
  have ht : hostWithoutMoves.files.IsTree := FileSystem.isTree_of_entries rfl rfl fun e he => by
    obtain rfl := List.mem_singleton.1 he
    rfl
  obtain ⟨-, huntouched⟩ :=
    (Operation.failures_safe ht.toIsSound _ .loadOrCreate).1 _ _ _ hrun
  exact ⟨_, _, _, hrun, (huntouched (ReplaceStep.isApart_plain rfl)).same (by decide)⟩

/-! ## Failures that are not safe -/

/-- What the path of the settings leads to is the same after a failure. -/
def Operation.FailsCleanly (op : Operation) (store : SettingsStore) (h : Host) : Prop :=
  ∀ e store' h', (op.run store).run h = ((.error e, store'), h') →
    h'.files.fileAt? store.path = h.files.fileAt? store.path

theorem not_failsCleanly_of_changed {op : Operation} {e : SettingsError}
    (herror : ((op.run store).run h).1.1 = .error e)
    (hchanged : ((op.run store).run h).2.files.fileAt? store.path ≠ h.files.fileAt? store.path) :
    ¬ op.FailsCleanly store h :=
  fun hclean => hchanged (hclean _ _ _ (run_of_error herror))

/-- A host with a settings file, where the temporary file cannot be created. -/
def hostWithBlockedFile : Host :=
  let h := Host.holding "[tool]\nprogram = \"mine\"\n"
  { h with files := { h.files with
      entries := ([encode "s.toml.tmp"], .directory) :: h.files.entries } }

theorem isTree_blockedFile : hostWithBlockedFile.files.IsTree := by
  refine FileSystem.isTree_of_entries rfl rfl fun e he => ?_
  simp only [hostWithBlockedFile, Host.holding, List.mem_cons, List.not_mem_nil, or_false] at he
  obtain rfl | rfl := he <;> rfl

/-- A host where the temporary file's name leads to the settings file, and where nothing can be
written to files. -/
def hostWithLinkedFile : Host :=
  let h := Host.holding "[tool]\nprogram = \"mine\"\n"
  { h with files := { h.files with
      links := { names := [([encode "s.toml.tmp"], .symbolic [encode "s.toml"])] }
      refuses := fun
        | .fill _ => some .permissionDenied
        | _ => none } }

theorem isSound_linkedFile : hostWithLinkedFile.files.IsSound := by
  have ht := Host.isTree_holding "[tool]\nprogram = \"mine\"\n"
  have hlink (l : Location) (hl : hostWithLinkedFile.files.isLink l = true) :
      l = [encode "s.toml.tmp"] := by
    by_contra hne
    have hb : (l == [encode "s.toml.tmp"]) = false := by simpa using hne
    simp [FileSystem.isLink, hostWithLinkedFile, List.lookup_cons, hb] at hl
  refine ⟨rfl, ht.parents, fun l s hl => ?_, fun l hl => ?_⟩
  · obtain rfl : l = [] := (List.append_inj' ((hlink _ hl).trans (List.nil_append _).symm) rfl).1
    rfl
  · rw [hlink l hl]
    decide +kernel

/-- Looked for through a folder that is missing, the file appears when the folder has been made; and
what is written to a temporary file that is the settings file is written to the settings file. -/
theorem not_failsCleanly :
    (hostWithBlockedFile.files.IsTree ∧
      ¬ Operation.FailsCleanly .save (.ofPath {} (.ofText "x/../s.toml")) hostWithBlockedFile) ∧
    hostWithLinkedFile.files.IsSound ∧
      ¬ Operation.FailsCleanly .save (.ofPath {} (.ofText "s.toml")) hostWithLinkedFile := by
  refine ⟨⟨isTree_blockedFile, ?_⟩, isSound_linkedFile, ?_⟩
  · refine not_failsCleanly_of_changed (e := .inaccessible .isADirectory) ?_ ?_ <;>
      decide +kernel
  · refine not_failsCleanly_of_changed (e := .inaccessible .permissionDenied) ?_ ?_ <;>
      decide +kernel

end SettingsStore

end ExportDesk
