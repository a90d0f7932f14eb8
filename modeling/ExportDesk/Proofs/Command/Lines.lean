import ExportDesk.Command.Display

/-!
# The lines of a command

`pretty_eq_groupLines`: going through the tokens by their index, with a mark behind every line and
the last mark taken away again, writes the lines of the tokens' groups with the marks in between.
The text that has been written never has to be looked at (`writeLines_eq`), and what is taken away
at the end is the mark behind the last group, whatever bytes stand before it (`dropLastMark_mark`).
-/

namespace ExportDesk.Command

/-! ## Groups -/

/-- The tokens in groups: an option with its value, or one token alone. -/
def groups : List String → List (List String)
  | [] => []
  | [t] => [[t]]
  | t :: v :: rest => if takesValue t v then [t, v] :: groups rest else [t] :: groups (v :: rest)

theorem flatten_groups (tokens : List String) : (groups tokens).flatten = tokens := by
  fun_induction groups tokens with
  | case1 => rfl
  | case2 => rfl
  | case3 t v rest _ ih => simp [ih]
  | case4 t v rest _ ih => simp [ih]

/-- A group on a line of its own. A single token that opens the list is not set in. -/
def groupLine (isFirst : Bool) (group : List String) : String :=
  (if isFirst && group.length == 1 then "" else "  ") ++ preview group

/-- The lines of the groups, each but the last with a mark that the command goes on. -/
def groupLines (isFirst : Bool) : List (List String) → String
  | [] => ""
  | [g] => groupLine isFirst g ++ "\n"
  | g :: gs => groupLine isFirst g ++ " \\\n" ++ groupLines false gs

/-- The lines of the groups, each with the mark. -/
def markedLines (isFirst : Bool) : List (List String) → String
  | [] => ""
  | g :: gs => groupLine isFirst g ++ goesOn ++ markedLines false gs

/-! ## Going through the tokens -/

theorem groupLine_pair (isFirst : Bool) (t v : String) :
    groupLine isFirst [t, v] = "  " ++ quote t ++ " " ++ quote v := by
  have hpreview : preview [t, v] = quote t ++ " " ++ quote v := by
    simp [preview, String.intercalate_cons_cons]
  simp [groupLine, hpreview, String.append_assoc]

theorem groupLine_single (isFirst : Bool) (t : String) :
    groupLine isFirst [t] = (if isFirst then "" else "  ") ++ quote t := by
  simp [groupLine, preview]

/-- The first group has the first token, and the next one if that is its value. -/
theorem groups_cons (t : String) (ts : List String) :
    groups (t :: ts) =
      match ts.head?.filter (takesValue t) with
      | some v => [t, v] :: groups ts.tail
      | none => [t] :: groups ts := by
  cases ts with
  | nil => rfl
  | cons v rest =>
    cases htakes : takesValue t v with
    | true =>
      rw [groups, if_pos htakes, List.head?_cons, Option.filter_some_pos htakes, List.tail_cons]
    | false =>
      rw [groups, if_neg (Bool.eq_false_iff.1 htakes), List.head?_cons,
        Option.filter_some_neg htakes]

/-- **Going through the tokens** from an index on writes the lines of the groups that are left. -/
theorem writeLines_eq (tokens : List String) (fuel i : Nat) (written : String)
    (h : tokens.length ≤ i + fuel) :
    writeLines tokens fuel i written =
      written ++ markedLines (i == 0) (groups (tokens.drop i)) := by
  induction fuel generalizing i written with
  | zero =>
    have hnone : tokens.drop i = [] := List.drop_eq_nil_of_le h
    rw [hnone]
    simp [writeLines, groups, markedLines]
  | succ fuel ih =>
    unfold writeLines
    cases htoken : tokens[i]? with
    | none =>
      rw [List.drop_eq_nil_of_le (List.getElem?_eq_none_iff.1 htoken)]
      simp [groups, markedLines]
    | some token =>
      have hdrop : tokens.drop i = token :: tokens.drop (i + 1) := by
        obtain ⟨hi, rfl⟩ := List.getElem?_eq_some_iff.1 htoken
        exact List.drop_eq_getElem_cons hi
      rw [hdrop, groups_cons, List.head?_drop, List.tail_drop]
      cases hvalue : tokens[i + 1]?.filter (takesValue token) with
      | some value =>
        simp only [hvalue]
        rw [ih _ _ (by omega), markedLines, groupLine_pair]
        simp [String.append_assoc]
      | none =>
        simp only [hvalue, markedLines, groupLine_single]
        by_cases hi : i = 0
        · rw [if_pos hi, ih _ _ (by omega), hi]
          simp [String.append_assoc]
        · rw [if_neg hi, ih _ _ (by omega), beq_eq_false_iff_ne.2 hi]
          simp [String.append_assoc]

/-! ## The last mark -/

theorem byteSize_append (cs more : List Char) :
    byteSize (cs ++ more) = byteSize cs + byteSize more := by
  induction cs with
  | nil => exact (Nat.zero_add _).symm
  | cons c cs ih => rw [List.cons_append, byteSize, byteSize, ih, Nat.add_assoc]

theorem takeBytes_append (cs more : List Char) :
    takeBytes (byteSize cs) (cs ++ more) = cs ++ takeBytes 0 more := by
  induction cs with
  | nil => rfl
  | cons c cs ih =>
    rw [List.cons_append, takeBytes, byteSize, if_pos (Nat.le_add_right _ _),
      Nat.add_sub_cancel_left, ih, List.cons_append]

/-- The mark behind a text is taken away, whatever the text is. -/
theorem dropLastMark_mark (text : String) : dropLastMark (text ++ goesOn) = text ++ "\n" := by
  have hsuffix : goesOn.toList.isSuffixOf (text ++ goesOn).toList = true := by
    rw [String.toList_append]
    exact List.isSuffixOf_iff_suffix.2 (List.suffix_append _ _)
  have hsize : byteSize (text ++ goesOn).toList - 3 = byteSize text.toList := by
    have hmark : byteSize goesOn.toList = 3 := by decide
    rw [String.toList_append, byteSize_append, hmark, Nat.add_sub_cancel]
  unfold dropLastMark
  dsimp only
  rw [if_pos hsuffix, hsize, String.toList_append, takeBytes_append]
  apply String.toList_inj.1
  simp [goesOn, takeBytes]
  decide

/-- The marks behind the groups are those between them, and one more. -/
theorem exists_markedLines (isFirst : Bool) (g : List String) (gs : List (List String)) :
    ∃ text, markedLines isFirst (g :: gs) = text ++ goesOn ∧
      groupLines isFirst (g :: gs) = text ++ "\n" := by
  induction gs generalizing isFirst g with
  | nil => exact ⟨groupLine isFirst g, by simp [markedLines], rfl⟩
  | cons g' gs ih =>
    obtain ⟨text, hmarked, hlines⟩ := ih false g'
    refine ⟨groupLine isFirst g ++ goesOn ++ text, ?_, ?_⟩
    · rw [markedLines, hmarked]
      simp only [String.append_assoc]
    · rw [groupLines, hlines]
      · simp only [goesOn, String.append_assoc]
      · exact List.cons_ne_nil g' gs

/-- **The lines of a command** are those of its groups, with the mark between them. -/
theorem pretty_eq_groupLines (tokens : List String) :
    pretty tokens = groupLines true (groups tokens) := by
  have hlines := writeLines_eq tokens tokens.length 0 "" (by omega)
  rw [pretty, hlines, List.drop_zero, String.empty_append]
  cases hgroups : groups tokens with
  | nil => rfl
  | cons g gs =>
    obtain ⟨text, hmarked, hgroupLines⟩ := exists_markedLines true g gs
    rw [show ((0 : Nat) == 0) = true from rfl, hmarked, dropLastMark_mark, hgroupLines]

end ExportDesk.Command
