import ExportDesk.Proofs.Settings.Failures
import ExportDesk.Proofs.Settings.Fields
import ExportDesk.Proofs.Toml.Comments
import ExportDesk.Proofs.Toml.Replaced

/-!
# Writing one section

`updateSection_only`: the file that a section was written to says of that section what is in memory
and of everything else what it said before, with the comments of the other tables. It can be read
exactly if no lines stand before the section's key, which come to stand in its header otherwise
(`updateSection_unreadable`). The order in which sections are written does not matter.
-/

namespace ExportDesk

open Text Toml Reader

namespace SettingsText

/-- The second document says of a section what the settings are, and of all else what the first
document says. -/
structure Revises (s : Settings) (part : SettingsSection) (d d' : Document) : Prop where
  own : d'.fields.lookup part.tableName = some (.table (fieldsOf (entriesOf s part)))
  others : ∀ name, name ≠ part.tableName → d'.fields.lookup name = d.fields.lookup name

theorem isPlain_entriesOf (s : Settings) (part : SettingsSection) :
    IsPlain (entriesOf s part) := by
  intro e he
  obtain ⟨f, -, rfl⟩ := List.mem_map.1 he
  exact ⟨f.2, rfl⟩

theorem decor_valuesOf (s : Settings) (part : SettingsSection) :
    ∀ f ∈ valuesOf s part, f.2.decor = ⟨" ", ""⟩ := by
  intro f hf
  cases part <;> simp only [valuesOf, List.mem_cons, List.not_mem_nil, or_false] at hf
  · obtain rfl | rfl | rfl := hf <;> rfl
  · obtain rfl | rfl := hf <;> rfl
  · obtain rfl | rfl | rfl := hf <;> rfl
  · obtain rfl | rfl | rfl | rfl := hf <;> rfl

/-- The entries of a section have the layout of lines that were read. -/
theorem laid_entriesOf (s : Settings) (part : SettingsSection) : Laid (entriesOf s part) := by
  have hgap : ∀ c ∈ " ".toList, isGap c = true := List.forall_mem_singleton.2 rfl
  refine ⟨fun e he => ?_, ?_, fun e he => ?_⟩
  · obtain ⟨f, hf, rfl⟩ := List.mem_map.1 he
    have hkey := isKey_plain (Layout.readsBack_fields s part f hf).1
    exact ⟨hkey.start, hkey.reads, hkey.before, hkey.after⟩
  · unfold entriesOf
    rw [List.map_map]
    show ((valuesOf s part).map fun f => f.1).Nodup
    rw [names_valuesOf]
    exact Layout.nodup_fieldNames part
  · obtain ⟨f, hf, rfl⟩ := List.mem_map.1 he
    have hdecor : f.2.decor = ⟨" ", ""⟩ := decor_valuesOf s part f hf
    have hkeyDecor : Decor.IsLeading ⟨"", " "⟩ := ⟨rfl, hgap⟩
    refine .value hkeyDecor ⟨?_, ?_, value_taken ((readsBack_valuesOf s part f hf).reads [])⟩
    · rw [hdecor]
      exact hgap
    · rw [hdecor]
      rfl

theorem fieldsNarrow_iff (es : Entries) :
    fieldsNarrow (fieldsOf es) = true ↔ ∀ e ∈ es, e.2.datum.isNarrow = true := by
  induction es with
  | nil => simp [fieldsOf, fieldsNarrow]
  | cons e es ih =>
    obtain ⟨k, i⟩ := e
    rw [fieldsOf, fieldsNarrow, Bool.and_eq_true, ih, List.forall_mem_cons]

theorem lookup_of_only {d : Document} {p : String → Bool} {name : String} (hp : p name = true) :
    d.fields.lookup name =
      (Entries.item? (Entries.only p (bareOf d.entries)) name).map Item.datum := by
  unfold Document.fields
  rw [← fieldsOf_bareOf, lookup_fieldsOf, Entries.item?_only hp]

/-- Entries are narrow if the others are as they were and the new table is narrow. -/
theorem fieldsNarrow_of_only {e e' : Document} {name : String} {k : Key} {inner : Entries}
    (hother : Entries.only (· != name) (bareOf e'.entries) =
      Entries.only (· != name) (bareOf e.entries))
    (hown : Entries.only (· == name) (bareOf e'.entries) = [(k, .table {} (bareOf inner))])
    (hinner : fieldsNarrow (fieldsOf inner) = true) (hold : fieldsNarrow e.fields = true) :
    fieldsNarrow e'.fields = true := by
  unfold Document.fields at hold ⊢
  rw [← fieldsOf_bareOf, fieldsNarrow_iff] at hold ⊢
  intro x hx
  by_cases hname : x.1.name = name
  · have hmem : x ∈ Entries.only (· == name) (bareOf e'.entries) :=
      List.mem_filter.2 ⟨hx, beq_iff_eq.2 hname⟩
    rw [hown] at hmem
    obtain rfl := List.mem_singleton.1 hmem
    rw [Item.datum, fieldsOf_bareOf]
    exact hinner
  · have hmem : x ∈ Entries.only (· != name) (bareOf e'.entries) :=
      List.mem_filter.2 ⟨hx, bne_iff_ne.2 hname⟩
    rw [hother] at hmem
    exact hold x (List.mem_filter.1 hmem).1

/-- **The printed document with a section's table set** can be read exactly if no lines stand before
the table's key, and then says what it should. -/
theorem readForEditing_setTable {d : Document} (hd : d.Kept) (hback : PrintsBack d) (s : Settings)
    (part : SettingsSection) :
    ((Document.readForEditing (d.setTable part.tableName (entriesOf s part)).print).isSome = true ↔
      d.FitsHeader part.tableName) ∧
    ∀ d', Document.readForEditing (d.setTable part.tableName (entriesOf s part)).print = some d' →
      Revises s part d d' := by
  have hplain := isPlain_entriesOf s part
  by_cases hfits : d.FitsHeader part.tableName
  · obtain ⟨e, he, hlookup⟩ := hback
    obtain ⟨e', k, hread, hk, hother, hown⟩ := read_print_setTable hd
      (Layout.isBare_tableName part) hplain (laid_entriesOf s part) hfits
      (read_of_readForEditing he)
    have hnarrow := fieldsNarrow_of_only hother hown (Layout.isNarrow_entriesOf s part)
      (Option.filter_eq_some_iff.1 he).2
    have hedit : Document.readForEditing
        (d.setTable part.tableName (entriesOf s part)).print = some e' := by
      unfold Document.readForEditing
      rw [hread, Option.filter_some, if_pos hnarrow]
    rw [hedit]
    refine ⟨⟨fun _ => hfits, fun _ => rfl⟩, ?_⟩
    rintro _ ⟨rfl⟩
    constructor
    · rw [lookup_of_only (p := (· == part.tableName)) (beq_self_eq_true _), hown,
        Entries.item?_cons, if_pos hk, Option.map_some, Item.datum, fieldsOf_bareOf]
    · intro name hname
      have hne : (name != part.tableName) = true := bne_iff_ne.2 hname
      rw [← hlookup name, lookup_of_only (p := (· != part.tableName)) hne, hother,
        ← lookup_of_only (p := (· != part.tableName)) hne]
  · have hnone : Document.readForEditing
        (d.setTable part.tableName (entriesOf s part)).print = none := by
      unfold Document.readForEditing
      rw [read_print_setTable_none hd hplain hfits]
      rfl
    rw [hnone]
    exact ⟨⟨nofun, fun h => absurd h hfits⟩, nofun⟩

/-- Writing sections one after another: each revises the document that the one before it left. -/
inductive RevisesAll (s : Settings) : List SettingsSection → Document → Document → Prop
  | nil (d : Document) : RevisesAll s [] d d
  | cons {part : SettingsSection} {parts : List SettingsSection} {d d' d'' : Document} :
    Revises s part d d' → RevisesAll s parts d' d'' → RevisesAll s (part :: parts) d d''

theorem RevisesAll.own {s : Settings} {parts : List SettingsSection} {d d' : Document}
    (h : RevisesAll s parts d d') {part : SettingsSection} (hmem : part ∈ parts) :
    d'.fields.lookup part.tableName = some (.table (fieldsOf (entriesOf s part))) := by
  have hlast {parts : List SettingsSection} {d d' : Document} (h : RevisesAll s parts d d')
      (hd : d.fields.lookup part.tableName = some (.table (fieldsOf (entriesOf s part)))) :
      d'.fields.lookup part.tableName = some (.table (fieldsOf (entriesOf s part))) := by
    induction h with
    | nil => exact hd
    | @cons other _ _ _ _ hr _ ih =>
      by_cases heq : part = other
      · subst heq
        exact ih hr.own
      · exact ih ((hr.others _ fun h => heq (SettingsSection.tableName_injective h)).trans hd)
  induction h with
  | nil => cases hmem
  | cons hr hrest ih =>
    obtain rfl | hmem := List.mem_cons.1 hmem
    · exact hlast hrest hr.own
    · exact ih hmem

theorem RevisesAll.others {s : Settings} {parts : List SettingsSection} {d d' : Document}
    (h : RevisesAll s parts d d') {name : String} (hname : ∀ part ∈ parts, name ≠ part.tableName) :
    d'.fields.lookup name = d.fields.lookup name := by
  induction h with
  | nil => rfl
  | cons hr _ ih =>
    rw [ih fun part hmem => hname part (List.mem_cons_of_mem _ hmem)]
    exact hr.others name (hname _ List.mem_cons_self)

/-- **The order does not matter.** -/
theorem RevisesAll.perm {s : Settings} {parts parts' : List SettingsSection} {d d₁ d₂ : Document}
    (h₁ : RevisesAll s parts d d₁) (h₂ : RevisesAll s parts' d d₂)
    (hperm : ∀ part, part ∈ parts ↔ part ∈ parts') (name : String) :
    d₁.fields.lookup name = d₂.fields.lookup name := by
  by_cases hin : ∃ part ∈ parts, name = part.tableName
  · obtain ⟨part, hmem, rfl⟩ := hin
    rw [h₁.own hmem, h₂.own ((hperm part).1 hmem)]
  · rw [not_exists] at hin
    rw [h₁.others fun part hmem heq => hin part ⟨hmem, heq⟩,
      h₂.others fun part hmem heq => hin part ⟨(hperm part).2 hmem, heq⟩]

end SettingsText

namespace SettingsStore

open SettingsText

variable {store store' : SettingsStore} {h h' : Host} {part : SettingsSection}

/-- The document in the settings file; an empty one where there is no file. -/
def document? (store : SettingsStore) (fs : FileSystem) : Option Document :=
  match fs.fileAt? store.path with
  | none => some {}
  | some c => (decode? c).bind Document.readForEditing

theorem document?_of_encode {fs : FileSystem} {text : String}
    (hfile : fs.fileAt? store.path = some (encode text)) :
    store.document? fs = Document.readForEditing text := by
  unfold document?
  rw [hfile]
  show (decode? (encode text)).bind _ = _
  rw [decode?_encode, Option.bind_some]

/-- **What writing a section has done.** The settings in memory are the same, and the file has the
text of its document with the section's table set. -/
theorem updateSection_ok (ht : h.files.IsTree)
    (hrun : ((Operation.updateSection part).run store).run h = ((.ok (), store'), h')) :
    store' = store ∧ h'.files.IsTree ∧ ∃ d, store.document? h.files = some d ∧
      h'.files.fileAt? store.path =
        some (encode (d.setTable part.tableName (entriesOf store.settings part)).print) := by
  obtain ⟨plan, hplan, hstore, ht', hfile⟩ := Operation.done_of_ok ht hrun
  unfold Operation.plan at hplan
  cases hread : (if h.files.exists? store.path then store.readFile h.files else .ok "") with
  | error e =>
    simp only [hread] at hplan
    cases hplan
  | ok text =>
    simp only [hread] at hplan
    cases hrevise : revise text store.settings part with
    | error e =>
      rw [hrevise] at hplan
      cases hplan
    | ok new =>
      rw [hrevise] at hplan
      cases hplan
      obtain ⟨d, hd, rfl⟩ := document_of_revise hrevise
      refine ⟨hstore, ht', d, ?_, hfile _ rfl⟩
      unfold document?
      cases hexists : h.files.exists? store.path with
      | false =>
        rw [hexists] at hread
        cases hread
        rw [FileSystem.fileAt?_of_absent hexists]
        exact hd
      | true =>
        rw [hexists, if_pos rfl] at hread
        unfold readFile at hread
        cases htext : h.files.readText store.path with
        | error e =>
          rw [htext] at hread
          cases hread
        | ok text' =>
          rw [htext] at hread
          cases hread
          obtain ⟨c, hc, hdecode⟩ := FileSystem.fileAt?_of_readText htext
          rw [hc]
          show (decode? c).bind _ = _
          rw [hdecode, Option.bind_some, hd]

theorem read_of_document? {fs : FileSystem} {d : Document} (h : store.document? fs = some d)
    {c : Bytes} {old : String} (hc : fs.fileAt? store.path = some c)
    (hold : decode? c = some old) : Document.read old = some d := by
  unfold document? at h
  rw [hc] at h
  simp only [hold, Option.bind_some] at h
  exact read_of_readForEditing h

theorem kept_of_document? {fs : FileSystem} {d : Document} (h : store.document? fs = some d) :
    d.Kept := by
  unfold document? at h
  split at h
  · cases h
    exact ⟨laid_nil, steady_nil, rfl⟩
  · obtain ⟨text, -, hread⟩ := Option.bind_eq_some_iff.1 h
    exact kept_of_read (read_of_readForEditing hread)

/-- What writing a section has done to the settings in memory, the document in the file, and the
lines and comments of the other tables. -/
structure Updated (store store' : SettingsStore) (part : SettingsSection) (h h' : Host)
    (d : Document) (text : String) : Prop where
  memory : store' = store
  read : store.document? h.files = some d
  written : h'.files.fileAt? store.path = some (encode text)
  others : KeepsOthers d part.tableName text
  comments : ∀ c old, h.files.fileAt? store.path = some c → decode? c = some old →
    ∃ ss trailing, KeepsComments old part.tableName text ss trailing
  readable : (store.document? h'.files).isSome = true ↔ d.FitsHeader part.tableName
  revises : ∀ d', store.document? h'.files = some d' → Revises store.settings part d d'

theorem updated_of_run (ht : h.files.IsTree)
    (hrun : ((Operation.updateSection part).run store).run h = ((.ok (), store'), h'))
    (hback : ∀ d, store.document? h.files = some d → PrintsBack d) :
    ∃ d text, Updated store store' part h h' d text := by
  obtain ⟨hstore, -, d, hd, hfile⟩ := updateSection_ok ht hrun
  have hkept := kept_of_document? hd
  have hedit := readForEditing_setTable hkept (hback d hd) store.settings part
  have hdocument := document?_of_encode hfile
  have hplain := isPlain_entriesOf store.settings part
  refine ⟨d, _, hstore, hd, hfile, keepsOthers_setTable hkept hplain part.tableName,
    fun c old hc hold => keepsComments_setTable (read_of_document? hd hc hold) hplain _, ?_, ?_⟩
  · rw [hdocument]
    exact hedit.1
  · rw [hdocument]
    exact hedit.2

/-- Sections written one after another into documents that print back. -/
inductive Writes (store : SettingsStore) : List SettingsSection → Host → Host → Prop
  | nil (h : Host) : Writes store [] h h
  | cons {part : SettingsSection} {parts : List SettingsSection} {h h' h'' : Host} :
    ((Operation.updateSection part).run store).run h = ((.ok (), store), h') →
    (∀ d, store.document? h.files = some d → PrintsBack d) →
    Writes store parts h' h'' → Writes store (part :: parts) h h''

theorem revisesAll_of_writes {parts : List SettingsSection} (hw : Writes store parts h h')
    (ht : h.files.IsTree) {d d' : Document} (hd : store.document? h.files = some d)
    (hd' : store.document? h'.files = some d') : RevisesAll store.settings parts d d' := by
  induction hw generalizing d with
  | nil =>
    obtain rfl := Option.some.inj (hd.symm.trans hd')
    exact .nil d
  | @cons _ parts h h₁ h' hrun hback hw ih =>
    obtain ⟨d₀, text, hupdated⟩ := updated_of_run ht hrun hback
    obtain rfl := Option.some.inj (hupdated.read.symm.trans hd)
    -- what was written can be read: by the section that is written next, or at the end
    obtain ⟨d₁, hd₁⟩ : ∃ d₁, store.document? h₁.files = some d₁ := by
      cases hw with
      | nil => exact ⟨d', hd'⟩
      | cons hrun' _ _ =>
        obtain ⟨-, -, d₁, hd₁, -⟩ := updateSection_ok (updateSection_ok ht hrun).2.1 hrun'
        exact ⟨d₁, hd₁⟩
    exact .cons (hupdated.revises d₁ hd₁) (ih (updateSection_ok ht hrun).2.1 hd₁ hd')

/-- **Writing a section changes nothing else.** The settings in memory stay, and so do the lines of
the other tables and all comments above, in and behind them. The file can be read exactly if no
lines stood before the section's key; its table has then what is in memory, and every other item
its value. Sections that are written one after another leave the same document in any order. -/
theorem updateSection_only (ht : h.files.IsTree) (store : SettingsStore) :
    (∀ part store' h', ((Operation.updateSection part).run store).run h = ((.ok (), store'), h') →
      (∀ d, store.document? h.files = some d → PrintsBack d) →
      ∃ d text, Updated store store' part h h' d text) ∧
    (∀ parts parts' h₁ h₂ d₁ d₂, Writes store parts h h₁ → Writes store parts' h h₂ →
      parts.Perm parts' → store.document? h₁.files = some d₁ →
      store.document? h₂.files = some d₂ →
      ∀ name, d₁.fields.lookup name = d₂.fields.lookup name) := by
  refine ⟨fun part store' h' hrun hback => updated_of_run ht hrun hback,
    fun parts parts' h₁ h₂ d₁ d₂ hw₁ hw₂ hperm hd₁ hd₂ => ?_⟩
  cases hd : store.document? h.files with
  | some d =>
    exact (revisesAll_of_writes hw₁ ht hd hd₁).perm (revisesAll_of_writes hw₂ ht hd hd₂)
      fun part => hperm.mem_iff
  | none =>
    -- nothing can be written where nothing can be read
    cases hw₁ with
    | nil => rw [hd] at hd₁; cases hd₁
    | cons hrun _ _ =>
      obtain ⟨-, -, d, hd', -⟩ := updateSection_ok ht hrun
      rw [hd] at hd'
      cases hd'

/-- The host after a section was written. -/
def afterUpdate (store : SettingsStore) (part : SettingsSection) (h : Host) : Host :=
  (((Operation.updateSection part).run store).run h).2

/-- A run of which only the success is known. -/
theorem run_of_ok (ht : h.files.IsTree)
    (hok : (((Operation.updateSection part).run store).run h).1.1 = .ok ()) :
    ((Operation.updateSection part).run store).run h =
      ((.ok (), store), store.afterUpdate part h) := by
  have hrun : ((Operation.updateSection part).run store).run h =
      ((.ok (), (((Operation.updateSection part).run store).run h).1.2),
        store.afterUpdate part h) := Prod.ext (Prod.ext hok rfl) rfl
  rwa [(updateSection_ok ht hrun).1] at hrun

/-- A document that is printed as it stands in its file prints back. -/
theorem printsBack_of_file {fs : FileSystem}
    (hfile : (store.document? fs).map (fun d => encode d.print) = fs.fileAt? store.path)
    (d : Document) (hd : store.document? fs = some d) : PrintsBack d := by
  rw [hd, Option.map_some] at hfile
  exact ⟨d, (document?_of_encode hfile.symm).symm.trans hd, fun _ => rfl⟩

/-- Settings with blank texts, for the one file of `Host.holding`. -/
def blankStore : SettingsStore where
  path := .ofText "s.toml"
  settings := { paths := { outputFolder := "", logsFolder := "" }, tool := { program := "" } }

/-- A settings file with a section and a table that no section has, each with a comment. -/
def commentedText : String := "# mine\n[x]\n# the tool\n[tool]\n"

theorem updateSection_only_commented :
    (∃ h' d text, ((Operation.updateSection .tool).run blankStore).run (.holding commentedText) =
        ((.ok (), blankStore), h') ∧
      Updated blankStore blankStore .tool (.holding commentedText) h' d text) ∧
    ∃ h₁ h₂ d₁ d₂, Writes blankStore [.tool, .paths] (.holding commentedText) h₁ ∧
      Writes blankStore [.paths, .tool] (.holding commentedText) h₂ ∧
      blankStore.document? h₁.files = some d₁ ∧ blankStore.document? h₂.files = some d₂ ∧
      ∀ name, d₁.fields.lookup name = d₂.fields.lookup name := by
  have ht := Host.isTree_holding commentedText
  have hback : ∀ d, blankStore.document? (Host.holding commentedText).files = some d →
      PrintsBack d := printsBack_of_file (by decide +kernel)
  have htool : ((Operation.updateSection .tool).run blankStore).run (.holding commentedText) = _ :=
    run_of_ok ht (by decide +kernel)
  have hpaths : ((Operation.updateSection .paths).run blankStore).run (.holding commentedText) = _ :=
    run_of_ok ht (by decide +kernel)
  -- the second section of either order can be written, and the outcome read
  have hsecond : (((Operation.updateSection .paths).run blankStore).run
        (blankStore.afterUpdate .tool (.holding commentedText))).1.1 = .ok () ∧
      (blankStore.document? (blankStore.afterUpdate .tool (.holding commentedText)).files).map
        (fun d => encode d.print) =
          (blankStore.afterUpdate .tool (.holding commentedText)).files.fileAt? blankStore.path ∧
      (blankStore.document? (blankStore.afterUpdate .paths
        (blankStore.afterUpdate .tool (.holding commentedText))).files).isSome = true := by
    decide +kernel
  have hsecond' : (((Operation.updateSection .tool).run blankStore).run
        (blankStore.afterUpdate .paths (.holding commentedText))).1.1 = .ok () ∧
      (blankStore.document? (blankStore.afterUpdate .paths (.holding commentedText)).files).map
        (fun d => encode d.print) =
          (blankStore.afterUpdate .paths (.holding commentedText)).files.fileAt?
            blankStore.path ∧
      (blankStore.document? (blankStore.afterUpdate .tool
        (blankStore.afterUpdate .paths (.holding commentedText))).files).isSome = true := by
    decide +kernel
  have hwrites : Writes blankStore [.tool, .paths] (.holding commentedText) _ :=
    .cons htool hback (.cons (run_of_ok (updateSection_ok ht htool).2.1 hsecond.1)
      (printsBack_of_file hsecond.2.1) (.nil _))
  have hwrites' : Writes blankStore [.paths, .tool] (.holding commentedText) _ :=
    .cons hpaths hback (.cons (run_of_ok (updateSection_ok ht hpaths).2.1 hsecond'.1)
      (printsBack_of_file hsecond'.2.1) (.nil _))
  obtain ⟨d₁, hd₁⟩ := Option.isSome_iff_exists.1 hsecond.2.2
  obtain ⟨d₂, hd₂⟩ := Option.isSome_iff_exists.1 hsecond'.2.2
  obtain ⟨honly, horder⟩ := updateSection_only ht blankStore
  obtain ⟨d, text, hupdated⟩ := honly .tool blankStore _ htool hback
  exact ⟨⟨_, d, text, htool, hupdated⟩, _, _, d₁, d₂, hwrites, hwrites', hd₁, hd₂,
    horder _ _ _ _ d₁ d₂ hwrites hwrites' (.swap _ _ _) hd₁ hd₂⟩

/-- A settings file whose tool is written inline, with a comment above it. -/
def inlineText : String := "# the tool\ntool = \x7b program = \"mine\" \x7d\n"

/-- The comment comes to stand inside the brackets of the new header. -/
theorem updateSection_unreadable :
    ∃ h', ((Operation.updateSection .tool).run blankStore).run
        (.holding inlineText) = ((.ok (), blankStore), h') ∧
      (blankStore.document?
        (Host.holding inlineText).files).isSome = true ∧
      blankStore.document? h'.files = none := by
  have hnone : (blankStore.document?
      (((Operation.updateSection .tool).run blankStore).run
        (.holding inlineText)).2.files).isNone = true := by decide +kernel
  exact ⟨_, run_of_ok (Host.isTree_holding _) (by decide +kernel), by decide +kernel,
    Option.isNone_iff_eq_none.1 hnone⟩

end SettingsStore

end ExportDesk
