import Mathlib

/-!
Texts cut at a separator, and a text file as its lines.
-/

namespace Lib

/-! ### Cutting a list -/

section

variable {α : Type} [BEq α] [LawfulBEq α]

/-- No piece of a cut has a separator. -/
theorem notMem_of_mem_splitOn {a : α} {cs part : List α} (h : part ∈ cs.splitOn a) :
    a ∉ part := by
  induction cs generalizing part with
  | nil =>
      rw [List.splitOn_nil, List.mem_singleton] at h
      rw [h]
      exact List.not_mem_nil
  | cons c cs ih =>
      rw [List.splitOn_cons_eq_if_modifyHead] at h
      split_ifs at h with hc
      · rcases List.mem_cons.1 h with rfl | h
        · exact List.not_mem_nil
        · exact ih h
      · obtain ⟨head, tail, hcut⟩ := List.exists_cons_of_ne_nil (List.splitOn_ne_nil a cs)
        rw [hcut] at ih h
        rcases List.mem_cons.1 h with rfl | h
        · rw [List.mem_cons, not_or]
          exact ⟨fun heq => hc (by simp [heq]), ih List.mem_cons_self⟩
        · exact ih (List.mem_cons_of_mem head h)

/-- A piece of a cut is made of what was cut. -/
theorem mem_of_mem_splitOn {x a : α} {s piece : List α}
    (hpiece : piece ∈ s.splitOn x) (ha : a ∈ piece) : a ∈ s := by
  have hs : [x].intercalate (s.splitOn x) = s := List.intercalate_splitOn x
  rw [← hs]
  generalize s.splitOn x = all at hpiece
  induction all with
  | nil => cases hpiece
  | cons p rest ih =>
      cases rest with
      | nil =>
          rw [List.intercalate_singleton]
          rwa [List.mem_singleton.1 hpiece] at ha
      | cons q rest =>
          rw [List.intercalate_cons_cons, List.mem_append, List.mem_append]
          obtain rfl | hrest := List.mem_cons.1 hpiece
          · exact .inl (.inl ha)
          · exact .inr (ih hrest)

omit [BEq α] [LawfulBEq α] in
theorem intercalate_append (x : α) {out : List (List α)} (hout : out ≠ []) :
    [x].intercalate out ++ [x] = out.flatMap (· ++ [x]) := by
  induction out with
  | nil => exact absurd rfl hout
  | cons s rest ih =>
      cases rest with
      | nil => simp
      | cons t rest =>
          rw [List.intercalate_cons_cons, List.append_assoc, ih (by simp)]
          rfl

theorem splitOn_flatMap (x : α) (out : List (List α)) :
    (out.flatMap (· ++ [x])).splitOn x = out.flatMap (·.splitOn x) ++ [[]] := by
  induction out with
  | nil => rfl
  | cons s rest ih =>
      rw [List.flatMap_cons, List.append_assoc, List.singleton_append,
        List.splitOn_append_cons_self, ih, List.flatMap_cons, List.append_assoc]

end

/-! ### Lines -/

def stripCr (line : List Char) : List Char :=
  if line.getLast? = some '\r' then line.dropLast else line

/-- `str::lines` -/
def lines (text : String) : List String :=
  let pieces := text.toList.splitOn '\n'
  (pieces.dropLast.map stripCr ++ pieces.getLast?.toList.filter (· ≠ [])).map .ofList

/-- A text at its line feeds. -/
def pieces (s : String) : List String := (s.toList.splitOn '\n').map .ofList

theorem pieces_ne_nil (s : String) : pieces s ≠ [] := by simp [pieces, List.splitOn_ne_nil]

theorem pieces_eq_singleton {s : String} (hs : '\n' ∉ s.toList) : pieces s = [s] := by
  rw [pieces, List.splitOn_eq_singleton hs, List.map_singleton, String.ofList_toList]

theorem stripCr_eq {line : List Char} (h : '\r' ∉ line) : stripCr line = line :=
  if_neg fun hlast => h (List.mem_of_getLast? hlast)

theorem mem_of_mem_stripCr {c : Char} {line : List Char} (h : c ∈ stripCr line) : c ∈ line := by
  rw [stripCr] at h
  split_ifs at h
  · exact List.mem_of_mem_dropLast h
  · exact h

theorem notMem_of_mem_lines {text l : String} (h : l ∈ lines text) : '\n' ∉ l.toList := by
  obtain ⟨cs, hcs, rfl⟩ := List.mem_map.1 h
  rw [String.toList_ofList]
  rcases List.mem_append.1 hcs with hcs | hcs
  · obtain ⟨cut, hcut, rfl⟩ := List.mem_map.1 hcs
    exact fun hc =>
      notMem_of_mem_splitOn (List.mem_of_mem_dropLast hcut) (mem_of_mem_stripCr hc)
  · exact notMem_of_mem_splitOn (List.mem_of_getLast? (by simpa using (List.mem_filter.1 hcs).1))

/-- The lines of a text that is written with a line feed behind each part. -/
theorem lines_join {out : List String} (hout : out ≠ []) (hcr : ∀ s ∈ out, '\r' ∉ s.toList) :
    lines (String.intercalate "\n" out ++ "\n") = out.flatMap pieces := by
  have hcut : (String.intercalate "\n" out ++ "\n").toList.splitOn '\n' =
      (out.flatMap fun s => s.toList.splitOn '\n') ++ [[]] := by
    rw [String.toList_append, String.toList_intercalate]
    change (['\n'].intercalate (out.map String.toList) ++ ['\n']).splitOn '\n' = _
    rw [intercalate_append _ (by simpa using hout), splitOn_flatMap, List.flatMap_map]
  have hstrip : (out.flatMap fun s => s.toList.splitOn '\n').map stripCr =
      out.flatMap fun s => s.toList.splitOn '\n' := by
    refine (List.map_congr_left fun piece hpiece => ?_).trans (List.map_id _)
    obtain ⟨s, hs, hpiece⟩ := List.mem_flatMap.1 hpiece
    exact stripCr_eq fun hmem => hcr s hs (mem_of_mem_splitOn hpiece hmem)
  rw [lines, hcut, List.dropLast_concat, List.getLast?_concat, hstrip]
  simp only [Option.toList_some, ne_eq, decide_not, List.filter_cons, decide_true, Bool.not_true,
    Bool.false_eq_true, if_false, List.filter_nil, List.append_nil, List.map_flatMap]
  rfl

end Lib
