import ExportDesk.Files.Links
import Mathlib.Data.List.Induction

/-!
# Following links

Names are followed one after another (`resolve_concat`), and where there are no links every location
leads to itself (`resolve_plain`).
-/

namespace ExportDesk.Links

open Text

variable {links : Links} {names : List (Location × Link)} {l : Location}

theorem hop_of_lookup (h : names.lookup l = none) (depth : Nat) : hop names depth l = l := by
  cases depth with
  | zero => rfl
  | succ depth => rw [hop, h]

theorem resolve_concat (links : Links) (l : Location) (s : Bytes) :
    links.resolve (l ++ [s]) = hop links.names links.maxDepth (links.resolve l ++ [s]) := by
  unfold resolve
  rw [List.foldl_append]
  rfl

theorem resolve_plain (h : links.names = []) (l : Location) : links.resolve l = l := by
  induction l using List.reverseRecOn with
  | nil => rfl
  | append_singleton l s ih =>
    rw [resolve_concat, ih, h, hop_of_lookup List.lookup_nil]

end ExportDesk.Links
