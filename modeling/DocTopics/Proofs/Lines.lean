import DocTopics.Text.Basic
import Mathlib.Data.List.Basic

/-!
# Lines and their ends

A text that was put together line by line falls apart into the same lines, as long as no line holds
a line feed or ends in a carriage return, which would be taken for a part of the line end. What line
ends are made of is white space, so a text is blank when its lines are.
-/

namespace DocTopics

/-- The text without the carriage return at its end, if there is one. -/
def Chars.dropReturn (cs : List Char) : List Char :=
  if cs.getLast? = some '\r' then cs.dropLast else cs

theorem Chars.dropReturn_eq_self_iff {cs : List Char} :
    Chars.dropReturn cs = cs ↔ cs.getLast? ≠ some '\r' := by
  unfold dropReturn
  split
  · rename_i hlast
    have hne : cs ≠ [] := by
      rintro rfl
      cases hlast
    refine ⟨fun h => ?_, fun h => absurd hlast h⟩
    have hlength := congrArg List.length h
    have hpos := List.length_pos_iff.2 hne
    rw [List.length_dropLast] at hlength
    omega
  · rename_i hlast
    exact ⟨fun _ => hlast, fun _ => rfl⟩

theorem Chars.dropReturn_append (front : List Char) {cs : List Char} (h : cs ≠ []) :
    Chars.dropReturn (front ++ cs) = front ++ Chars.dropReturn cs := by
  unfold dropReturn
  rw [List.getLast?_append_of_ne_nil front h, List.dropLast_append_of_ne_nil h]
  split <;> rfl

/-- The line in front of a line feed loses one carriage return at its end. -/
theorem Chars.lines_append_newline {body : List Char} (rest : List Char) (hbody : '\n' ∉ body) :
    Chars.lines (body ++ '\n' :: rest) = Chars.dropReturn body :: Chars.lines rest := by
  induction body with
  | nil =>
    rw [List.nil_append, Chars.lines]
    rfl
  | cons c cs ih =>
    have hc : c ≠ '\n' := fun h => hbody (h ▸ List.mem_cons_self)
    have hcs : '\n' ∉ cs := fun h => hbody (List.mem_cons_of_mem c h)
    by_cases hreturn : c = '\r' ∧ cs = []
    · obtain ⟨rfl, rfl⟩ := hreturn
      rw [List.singleton_append, Chars.lines]
      rfl
    · -- a carriage return counts only right in front of the line feed, where `body` ends
      have hpair : ∀ cs', c = '\r' → cs ++ '\n' :: rest = '\n' :: cs' → False := by
        intro cs' hr heq
        cases cs with
        | nil => exact hreturn ⟨hr, rfl⟩
        | cons d ds =>
          rw [List.cons_append] at heq
          injection heq with hd
          exact hcs (hd ▸ List.mem_cons_self)
      have hdrop : Chars.dropReturn (c :: cs) = c :: Chars.dropReturn cs := by
        cases cs with
        | nil =>
          have hlast : [c].getLast? ≠ some '\r' := fun h => hreturn ⟨Option.some_inj.1 h, rfl⟩
          rw [Chars.dropReturn_eq_self_iff.2 hlast]
          rfl
        | cons d ds => exact Chars.dropReturn_append [c] (List.cons_ne_nil d ds)
      rw [List.cons_append, Chars.lines.eq_4 _ _ hc hpair, ih hcs, hdrop]
      rfl

theorem Chars.lines_append {body : List Char} (rest : List Char) (hbody : '\n' ∉ body)
    (hlast : body.getLast? ≠ some '\r') :
    Chars.lines (body ++ '\n' :: rest) = body :: Chars.lines rest := by
  rw [lines_append_newline rest hbody, dropReturn_eq_self_iff.2 hlast]

theorem Chars.lines_of_newline_notMem {cs : List Char} (h : '\n' ∉ cs) (hne : cs ≠ []) :
    Chars.lines cs = [cs] := by
  induction cs with
  | nil => exact absurd rfl hne
  | cons c cs ih =>
    rw [List.mem_cons, not_or] at h
    obtain ⟨hc, hcs⟩ := h
    have hpair : ∀ cs', c = '\r' → cs = '\n' :: cs' → False := by
      rintro cs' - rfl
      exact hcs List.mem_cons_self
    rw [Chars.lines.eq_4 _ _ (Ne.symm hc) hpair]
    by_cases hnil : cs = []
    · rw [hnil]
      rfl
    · rw [ih hcs hnil]
      rfl

/-- What holds of a text and its lines: a text ends with its only line, or it starts with a line and
a line feed. -/
theorem Chars.lines_induction {motive : List Char → List (List Char) → Prop} (nil : motive [] [])
    (last : ∀ cs, cs ≠ [] → '\n' ∉ cs → motive cs [cs])
    (feed : ∀ body rest, '\n' ∉ body → motive rest (Chars.lines rest) →
      motive (body ++ '\n' :: rest) (Chars.dropReturn body :: Chars.lines rest))
    (cs : List Char) : motive cs (Chars.lines cs) := by
  by_cases hnil : cs = []
  · rw [hnil]
    exact nil
  by_cases hfeed : '\n' ∈ cs
  · obtain ⟨body, rest, rfl, hbody⟩ := List.eq_append_cons_of_mem hfeed
    rw [Chars.lines_append_newline rest hbody]
    exact feed body rest hbody (Chars.lines_induction nil last feed rest)
  · rw [Chars.lines_of_newline_notMem hfeed hnil]
    exact last cs hnil hfeed
termination_by cs.length
decreasing_by simp_all; omega

theorem Chars.newline_notMem_of_mem_lines {cs line : List Char} (h : line ∈ Chars.lines cs) :
    '\n' ∉ line := by
  fun_induction Chars.lines cs generalizing line with
  | case1 => cases h
  | case2 cs ih | case3 cs ih =>
    rcases List.mem_cons.1 h with rfl | h
    · exact List.not_mem_nil
    · exact ih h
  | case4 c cs hc _ ih =>
    cases hlines : Chars.lines cs with
    | nil =>
      rw [hlines, consHead, List.mem_singleton] at h
      rw [h, List.mem_singleton]
      exact fun heq => hc heq.symm
    | cons first others =>
      rw [hlines, consHead] at h
      rw [hlines] at ih
      rcases List.mem_cons.1 h with rfl | h
      · rw [List.mem_cons, not_or]
        exact ⟨fun heq => hc heq.symm, ih List.mem_cons_self⟩
      · exact ih (List.mem_cons_of_mem first h)

/-- A text is blank if all of its lines are. -/
theorem Chars.forall_blank_lines_iff {cs : List Char} :
    (∀ l ∈ Chars.lines cs, Chars.blank l = true) ↔ Chars.blank cs = true := by
  have hconsHead : ∀ (c : Char) (ls : List (List Char)),
      (∀ l ∈ consHead c ls, Chars.blank l = true) ↔
        isBlank c = true ∧ ∀ l ∈ ls, Chars.blank l = true := by
    intro c ls
    cases ls <;> simp [consHead, Chars.blank, and_assoc]
  have hfeed : isBlank '\n' = true ∧ isBlank '\r' = true := by decide
  fun_induction Chars.lines cs with
  | case1 => simp [Chars.blank]
  | case2 cs ih => simpa [Chars.blank, hfeed] using ih
  | case3 cs ih => simpa [Chars.blank, hfeed] using ih
  | case4 c cs _ _ ih =>
    refine (hconsHead c _).trans ((and_congr_right fun _ => ih).trans ?_)
    simp [Chars.blank]

theorem Chars.length_lines_le (cs : List Char) : (Chars.lines cs).length ≤ cs.length := by
  refine Chars.lines_induction (motive := fun cs ls => ls.length ≤ cs.length)
    (Nat.le_refl 0) ?_ ?_ cs
  · intro cs hne _
    exact List.length_pos_iff.2 hne
  · intro body rest _ ih
    rw [List.length_cons, List.length_append, List.length_cons]
    omega

/-- Lines that are each ended by a line feed are read back, less a carriage return at the end. -/
theorem Text.lines_join_newline {ls : List String} (h : ∀ l ∈ ls, '\n' ∉ l.toList) :
    Text.lines (String.join (ls.map (· ++ "\n"))) =
      ls.map fun l => String.ofList (Chars.dropReturn l.toList) := by
  have hlines : Chars.lines (String.join (ls.map (· ++ "\n"))).toList =
      ls.map fun l => Chars.dropReturn l.toList := by
    induction ls with
    | nil => rfl
    | cons l ls ih =>
      obtain ⟨hnewline, hls⟩ := List.forall_mem_cons.1 h
      have hjoin : (String.join ((l :: ls).map (· ++ "\n"))).toList =
          l.toList ++ '\n' :: (String.join (ls.map (· ++ "\n"))).toList := by
        simp [String.toList_join]
      rw [hjoin, Chars.lines_append_newline _ hnewline, ih hls, List.map_cons]
  rw [Text.lines, hlines, List.map_map]
  rfl

/-- Lines that are each ended by a line feed are read back. -/
theorem Text.lines_join {ls : List String}
    (h : ∀ l ∈ ls, '\n' ∉ l.toList ∧ l.toList.getLast? ≠ some '\r') :
    Text.lines (String.join (ls.map (· ++ "\n"))) = ls := by
  have hkept : ∀ l ∈ ls, String.ofList (Chars.dropReturn l.toList) = l := by
    intro l hl
    rw [Chars.dropReturn_eq_self_iff.2 (h l hl).2, String.ofList_toList]
  rw [Text.lines_join_newline fun l hl => (h l hl).1, List.map_congr_left hkept, List.map_id']

/-! ### Joined lines -/

theorem Text.toList_joinLines_cons (l next : String) (ls : List String) :
    (Text.joinLines (l :: next :: ls)).toList =
      l.toList ++ '\n' :: (Text.joinLines (next :: ls)).toList := by
  rw [Text.joinLines, Text.join, String.toList_append, String.toList_append, List.append_assoc]
  rfl

theorem Text.toList_joinLines_of_ne_nil (l : String) {ls : List String} (h : ls ≠ []) :
    (Text.joinLines (l :: ls)).toList = l.toList ++ '\n' :: (Text.joinLines ls).toList := by
  cases ls with
  | nil => exact absurd rfl h
  | cons next ls => exact Text.toList_joinLines_cons l next ls

/-- Lines that were joined are read back, unless the last one is empty. -/
theorem Text.lines_joinLines {ls : List String}
    (h : ∀ l ∈ ls, '\n' ∉ l.toList ∧ l.toList.getLast? ≠ some '\r')
    (hlast : ∀ l ∈ ls.getLast?, l ≠ "") :
    Chars.lines (Text.joinLines ls).toList = ls.map String.toList := by
  induction ls with
  | nil => rfl
  | cons l ls ih =>
    obtain ⟨hl, hls⟩ := List.forall_mem_cons.1 h
    cases ls with
    | nil =>
      have hne : l.toList ≠ [] := fun hnil => hlast l rfl (String.toList_eq_nil_iff.1 hnil)
      exact Chars.lines_of_newline_notMem hl.1 hne
    | cons next ls =>
      rw [List.getLast?_cons_cons] at hlast
      rw [Text.toList_joinLines_cons, Chars.lines_append _ hl.1 hl.2, ih hls hlast]
      rfl

/-- Joining lines makes no new ones. -/
theorem Text.length_lines_joinLines_le {ls : List String} (h : ∀ l ∈ ls, '\n' ∉ l.toList) :
    (Chars.lines (Text.joinLines ls).toList).length ≤ ls.length := by
  induction ls with
  | nil => exact Nat.le_refl 0
  | cons l ls ih =>
    obtain ⟨hl, hls⟩ := List.forall_mem_cons.1 h
    cases ls with
    | nil =>
      by_cases hnil : l.toList = []
      · have hempty : Chars.lines (Text.joinLines [l]).toList = [] := congrArg Chars.lines hnil
        rw [hempty]
        exact Nat.zero_le _
      · exact Nat.le_of_eq (congrArg List.length (Chars.lines_of_newline_notMem hl hnil))
    | cons next ls =>
      have hrest := ih hls
      rw [Text.toList_joinLines_cons, Chars.lines_append_newline _ hl, List.length_cons,
        List.length_cons]
      omega

end DocTopics
