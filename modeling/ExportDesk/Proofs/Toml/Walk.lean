import Mathlib.Data.List.Basic
import ExportDesk.Toml.Assembly

/-!
# Walking down a path

What `modifyAt` does at the front of a path, as equations for each thing that can stand there and
as the cases of a walk that succeeds.
-/

namespace ExportDesk.Toml.Entries

section

variable {dotted : Bool} {change : Head → Entries → Option Entries} {k : Key} {ks : List Key}
variable {h : Head} {es : Entries}

theorem modifyAt_missing (hitem : es.item? k.name = none) :
    modifyAt dotted change (k :: ks) h es =
      (modifyAt dotted change ks { implicit := true, dotted } []).map fun inner =>
        es ++ [(k, .table { implicit := true, dotted } inner)] := by
  rw [modifyAt, hitem]
  cases hinner : modifyAt dotted change ks { implicit := true, dotted } [] <;> simp [hinner]

theorem modifyAt_value {v : Value} (hitem : es.item? k.name = some (.value v)) :
    modifyAt dotted change (k :: ks) h es = none := by
  rw [modifyAt, hitem]

theorem modifyAt_table {h' : Head} {inner : Entries}
    (hitem : es.item? k.name = some (.table h' inner)) :
    modifyAt dotted change (k :: ks) h es =
      if dotted && !h'.implicit then none
      else (modifyAt dotted change ks h' inner).map fun inner' =>
        es.replace k.name (.table h' inner') := by
  rw [modifyAt, hitem]
  cases hinner : modifyAt dotted change ks h' inner <;> simp [hinner]

theorem modifyAt_tables {ts : List (Head × Entries)}
    (hitem : es.item? k.name = some (.tables ts)) :
    modifyAt dotted change (k :: ks) h es =
      ts.getLast?.bind fun t => (modifyAt dotted change ks t.1 t.2).map fun inner' =>
        es.replace k.name (.tables (ts.dropLast ++ [(t.1, inner')])) := by
  rw [modifyAt, hitem]
  cases hlast : ts.getLast? with
  | none => simp [hlast]
  | some t => cases hinner : modifyAt dotted change ks t.1 t.2 <;> simp [hlast, hinner]

/-- What a walk did at the front of its path: it made a table, or changed the one it found. -/
inductive Walked (dotted : Bool) (change : Head → Entries → Option Entries) (k : Key)
    (ks : List Key) (es : Entries) : Entries → Prop
  | made {inner : Entries} (hitem : es.item? k.name = none)
    (hinner : modifyAt dotted change ks { implicit := true, dotted } [] = some inner) :
    Walked dotted change k ks es (es ++ [(k, .table { implicit := true, dotted } inner)])
  | table {h : Head} {inner inner' : Entries} (hitem : es.item? k.name = some (.table h inner))
    (himplicit : dotted = true → h.implicit = true)
    (hinner : modifyAt dotted change ks h inner = some inner') :
    Walked dotted change k ks es (es.replace k.name (.table h inner'))
  | tables {ts : List (Head × Entries)} {h : Head} {inner inner' : Entries}
    (hitem : es.item? k.name = some (.tables (ts ++ [(h, inner)])))
    (hinner : modifyAt dotted change ks h inner = some inner') :
    Walked dotted change k ks es (es.replace k.name (.tables (ts ++ [(h, inner')])))

theorem walked_of_modifyAt {es' : Entries}
    (hrun : modifyAt dotted change (k :: ks) h es = some es') :
    Walked dotted change k ks es es' := by
  cases hitem : es.item? k.name with
  | none =>
    rw [modifyAt_missing hitem] at hrun
    obtain ⟨inner, hinner, rfl⟩ := Option.map_eq_some_iff.1 hrun
    exact .made hitem hinner
  | some i =>
    cases i with
    | value v =>
      rw [modifyAt_value hitem] at hrun
      cases hrun
    | table h' inner =>
      rw [modifyAt_table hitem] at hrun
      split at hrun
      · cases hrun
      next himplicit =>
        obtain ⟨inner', hinner, rfl⟩ := Option.map_eq_some_iff.1 hrun
        exact .table hitem (fun hd => by simpa [hd] using himplicit) hinner
    | tables ts =>
      rw [modifyAt_tables hitem] at hrun
      obtain ⟨⟨h', inner⟩, hlast, hrun⟩ := Option.bind_eq_some_iff.1 hrun
      obtain ⟨inner', hinner, rfl⟩ := Option.map_eq_some_iff.1 hrun
      have hts := List.dropLast_append_getLast? (h', inner) hlast
      refine .tables ?_ hinner
      rw [hitem, hts]

end

end ExportDesk.Toml.Entries
