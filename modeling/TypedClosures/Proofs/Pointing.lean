import TypedClosures.Report.Draw
import Mathlib.Data.String.Basic

/-!
# Where a report points

A renderer that goes by its documentation takes an offset for a number of characters
(`CountsCharacters`), and heads a report with the line and the column of the first offset
of its span (`NamesStart`). The renderer that draws is one of them
(`drawing_countsCharacters`, `drawing_namesStart`).

Offsets that count bytes are understood by any such renderer as long as every character
before the span is one byte long, and misunderstood after the first longer one
(`renderWith_pointsTo_iff`).
-/

namespace TypedClosures

namespace Report

-- ---------------------------------------------------------------------------
-- Lines and the characters in them
-- ---------------------------------------------------------------------------

/-- A way to cut texts into lines, which put together are the text again. -/
structure Cutting where
  lines : List Char → List (List Char)
  flatten_lines : ∀ chars, (lines chars).flatten = chars

def atLineEnds : Cutting := ⟨cut, flatten_cut⟩

/-- Of these characters, cut into lines, the one with number `offset` stands at the place: in
that line of the text, and at that position of the line. -/
def StandsAt (cutting : Cutting) (chars : List Char) (offset : Nat) (place : Place) : Prop :=
  ∃ above left c right below, cutting.lines chars = above ++ (left ++ c :: right) :: below ∧
    offset = above.flatten.length + left.length ∧
    place = ⟨above.length + 1, left.length + 1⟩

theorem exists_split_flatten {α : Type} {xs : List (List α)} {n : Nat}
    (h : n < xs.flatten.length) :
    ∃ above left a right below, xs = above ++ (left ++ a :: right) :: below ∧
      n = above.flatten.length + left.length := by
  induction xs generalizing n with
  | nil => simp at h
  | cons x xs ih =>
    by_cases hx : n < x.length
    · refine ⟨[], x.take n, x[n], x.drop (n + 1), xs, ?_, ?_⟩
      · rw [List.getElem_cons_drop, List.take_append_drop, List.nil_append]
      · simp only [List.flatten_nil, List.length_nil, List.length_take]
        omega
    · rw [List.flatten_cons, List.length_append] at h
      obtain ⟨above, left, a, right, below, rfl, hn⟩ := @ih (n - x.length) (by omega)
      refine ⟨x :: above, left, a, right, below, rfl, ?_⟩
      rw [List.flatten_cons, List.length_append]
      omega

theorem exists_standsAt (cutting : Cutting) {chars : List Char} {offset : Nat}
    (h : offset < chars.length) : ∃ place, StandsAt cutting chars offset place := by
  rw [← cutting.flatten_lines chars] at h
  obtain ⟨above, left, c, right, below, hsplit, hoffset⟩ := exists_split_flatten h
  exact ⟨_, above, left, c, right, below, hsplit, hoffset, rfl⟩

theorem exists_getElem?_takeWhile {α : Type} {p : α → Bool} {x : α} {xs : List α} (hx : p x) :
    ∃ y, (x :: xs)[((x :: xs).takeWhile p).length - 1]? = some y ∧ p y := by
  induction xs generalizing x with
  | nil => exact ⟨x, by simp [hx], hx⟩
  | cons z zs ih =>
    by_cases hz : p z
    · obtain ⟨y, hy, hpy⟩ := ih hz
      refine ⟨y, ?_, hpy⟩
      rw [List.takeWhile_cons_of_pos hz, List.length_cons, Nat.add_sub_cancel] at hy
      rw [List.takeWhile_cons_of_pos hx, List.takeWhile_cons_of_pos hz]
      exact hy
    · exact ⟨x, by simp [hx, hz], hx⟩

theorem length_placed (start : Nat) (xs : List (List Char)) :
    (placed start xs).length = xs.length := by
  induction xs generalizing start with
  | nil => rfl
  | cons x xs ih => rw [placed, List.length_cons, ih, List.length_cons]

theorem placed_append (start : Nat) (xs ys : List (List Char)) :
    placed start (xs ++ ys) = placed start xs ++ placed (start + xs.flatten.length) ys := by
  induction xs generalizing start with
  | nil => rfl
  | cons x xs ih =>
    rw [List.cons_append, placed, placed, ih, List.flatten_cons, List.length_append,
      List.cons_append, Nat.add_assoc]

theorem start_le_of_mem_placed {start : Nat} {xs : List (List Char)} {line : Line}
    (h : line ∈ placed start xs) : line.start ≤ start + xs.flatten.length := by
  induction xs generalizing start with
  | nil => simp [placed] at h
  | cons x xs ih =>
    rw [List.flatten_cons, List.length_append]
    obtain rfl | h := List.mem_cons.mp h
    · simp
    · have := ih h
      omega

namespace Source

section
variable {text : String} {offset number : Nat} {place : Place}

theorem length_ofString (text : String) : (ofString text).length = text.length :=
  String.length_toList

theorem lines_ofString (h : text.toList ≠ []) :
    (ofString text).lines = placed 0 (cut text.toList) := by
  rw [ofString]
  simp [h]

section
variable {above below : List (List Char)} {chars : List Char}

theorem lines_of_cut (hcut : cut text.toList = above ++ chars :: below) :
    (ofString text).lines = placed 0 above ++ ⟨above.flatten.length, chars⟩ ::
      placed (above.flatten.length + chars.length) below := by
  have htext : text.toList ≠ [] := by
    intro h
    rw [h] at hcut
    simp [cut] at hcut
  rw [lines_ofString htext, hcut, placed_append, Nat.zero_add, placed]

theorem line_of_cut (hcut : cut text.toList = above ++ chars :: below) :
    (ofString text).line above.length = ⟨above.flatten.length, chars⟩ := by
  rw [line, lines_of_cut hcut, List.getD_eq_getElem?_getD,
    List.getElem?_append_right (Nat.le_of_eq (length_placed 0 above)), length_placed]
  simp

theorem lineAt?_of_cut (hcut : cut text.toList = above ++ chars :: below)
    (hoffset : offset < chars.length) :
    (ofString text).lineAt? (above.flatten.length + offset) = some above.length := by
  have hlength : above.flatten.length + offset ≤ (ofString text).length := by
    rw [length_ofString, ← String.length_toList, ← flatten_cut text.toList, hcut,
      List.flatten_append, List.flatten_cons, List.length_append, List.length_append]
    omega
  -- The lines above start before the offset, and those below after it.
  have habove : ∀ line ∈ placed 0 above,
      decide (line.start ≤ above.flatten.length + offset) = true := by
    intro line hline
    have := start_le_of_mem_placed hline
    exact decide_eq_true (by omega)
  have hbelow : (placed (above.flatten.length + chars.length) below).takeWhile
      (fun line => line.start ≤ above.flatten.length + offset) = [] := by
    cases below with
    | nil => rfl
    | cons next below =>
      have : ¬ above.flatten.length + chars.length ≤ above.flatten.length + offset := by omega
      exact List.takeWhile_cons_of_neg (by simpa using this)
  rw [lineAt?, if_pos hlength, lines_of_cut hcut, List.takeWhile_append_of_pos habove,
    List.takeWhile_cons_of_pos (by simp), hbelow, List.length_append, length_placed]
  rfl

end

theorem place?_of_standsAt (h : StandsAt atLineEnds text.toList offset place) :
    (ofString text).place? offset = some place := by
  obtain ⟨above, left, c, right, below, hcut, rfl, rfl⟩ := h
  have hleft : left.length < (left ++ c :: right).length := by
    rw [List.length_append, List.length_cons]
    omega
  rw [place?, lineAt?_of_cut hcut hleft, Option.bind_eq_bind, Option.bind_some, line_of_cut hcut,
    Nat.add_sub_cancel_left]
  rfl

theorem exists_first_line (text : String) :
    ∃ first rest, (ofString text).lines = first :: rest ∧ first.start = 0 := by
  by_cases h : text.toList = []
  · exact ⟨⟨0, []⟩, [], by simp [ofString, h], rfl⟩
  · rw [lines_ofString h]
    cases hcut : cut text.toList with
    | nil =>
      have hchars := flatten_cut text.toList
      rw [hcut] at hchars
      exact absurd hchars.symm h
    | cons line lines => exact ⟨⟨0, line⟩, _, rfl, rfl⟩

theorem start_le_of_lineAt? (h : (ofString text).lineAt? offset = some number) :
    ((ofString text).line number).start ≤ offset := by
  obtain ⟨first, rest, hlines, hfirst⟩ := exists_first_line text
  rw [lineAt?] at h
  split at h
  · obtain rfl := Option.some.inj h
    have hx : decide (first.start ≤ offset) = true := by simp [hfirst]
    obtain ⟨line, hline, hstart⟩ := @exists_getElem?_takeWhile _
      (fun line : Line => decide (line.start ≤ offset)) first rest hx
    rw [Source.line, List.getD_eq_getElem?_getD, hlines, hline]
    exact of_decide_eq_true hstart
  · cases h

theorem exists_place? (h : offset ≤ text.length) :
    ∃ place, (ofString text).place? offset = some place := by
  rw [place?, lineAt?, length_ofString, if_pos h]
  exact ⟨_, rfl⟩

theorem place?_inj {offset' : Nat} (h : (ofString text).place? offset = some place)
    (h' : (ofString text).place? offset' = some place) : offset = offset' := by
  simp only [place?, Option.bind_eq_bind, Option.bind_eq_some_iff, Option.pure_def,
    Option.some.injEq] at h h'
  obtain ⟨i, hi, rfl⟩ := h
  obtain ⟨j, hj, hplace⟩ := h'
  injection hplace with hline hcolumn
  obtain rfl : j = i := by omega
  have := start_le_of_lineAt? hi
  have := start_le_of_lineAt? hj
  omega

end

end Source

-- ---------------------------------------------------------------------------
-- The place in the text of a report
-- ---------------------------------------------------------------------------

/-- In the line after its message, behind some blanks, the report names this place. -/
def PointsTo (report message : String) (place : Place) : Prop :=
  ∃ indent rest, report = "Error: " ++ message ++ "\n" ++ repeated indent " " ++
    "╭─[ <unknown>:" ++ Nat.repr place.line ++ ":" ++ Nat.repr place.column ++ " ]\n" ++ rest

theorem toList_repeated_blank (n : Nat) : (repeated n " ").toList = List.replicate n ' ' := by
  rw [repeated, String.toList_join]
  induction n with
  | zero => rfl
  | succ n ih =>
    rw [List.replicate_succ, List.flatMap_cons, ih, List.replicate_succ]
    rfl

theorem append_cons_inj {α : Type} {x : α} {xs ys rest rest' : List α} (hxs : x ∉ xs)
    (hys : x ∉ ys) (h : xs ++ x :: rest = ys ++ x :: rest') : xs = ys ∧ rest = rest' := by
  induction xs generalizing ys with
  | nil =>
    cases ys with
    | nil => exact ⟨rfl, (List.cons.inj h).2⟩
    | cons y ys => exact absurd (List.cons.inj h).1 (List.ne_of_not_mem_cons hys)
  | cons z xs ih =>
    cases ys with
    | nil => exact absurd (List.cons.inj h).1.symm (List.ne_of_not_mem_cons hxs)
    | cons y ys =>
      obtain ⟨rfl, htail⟩ := List.cons.inj h
      obtain ⟨rfl, hrest⟩ :=
        ih (List.not_mem_of_not_mem_cons hxs) (List.not_mem_of_not_mem_cons hys) htail
      exact ⟨rfl, hrest⟩

theorem repr_append_inj {m n : Nat} {c : Char} {rest rest' : List Char} (hc : c.isDigit = false)
    (h : (Nat.repr m).toList ++ c :: rest = (Nat.repr n).toList ++ c :: rest') :
    m = n ∧ rest = rest' := by
  have hdigits : ∀ k, c ∉ (Nat.repr k).toList := by
    intro k hk
    rw [Nat.toList_repr] at hk
    rw [Nat.isDigit_of_mem_toDigits (by decide) (by decide) hk] at hc
    cases hc
  obtain ⟨hmn, hrest⟩ := append_cons_inj (hdigits m) (hdigits n) h
  rw [Nat.toList_repr, Nat.toList_repr] at hmn
  refine ⟨?_, hrest⟩
  calc m = Nat.ofDigitChars 10 (Nat.toDigits 10 m) 0 := Nat.ofDigitChars_ten_toDigits.symm
    _ = Nat.ofDigitChars 10 (Nat.toDigits 10 n) 0 := by rw [hmn]
    _ = n := Nat.ofDigitChars_ten_toDigits

theorem PointsTo.unique {report message : String} {place place' : Place}
    (h : PointsTo report message place) (h' : PointsTo report message place') : place = place' := by
  obtain ⟨indent, rest, rfl⟩ := h
  obtain ⟨indent', rest', heq⟩ := h'
  have hblank : ∀ n, '╭' ∉ (repeated n " ").toList := by
    intro n hn
    rw [toList_repeated_blank] at hn
    exact absurd (List.eq_of_mem_replicate hn) (by decide)
  simp only [String.append_assoc, String.append_right_inj] at heq
  have hchars := congrArg String.toList heq
  simp only [String.toList_append] at hchars
  obtain ⟨-, hchars⟩ := append_cons_inj (hblank indent) (hblank indent') hchars
  obtain ⟨hline, hchars⟩ := repr_append_inj (by decide) (List.append_cancel_left hchars)
  obtain ⟨hcolumn, -⟩ := repr_append_inj (by decide) hchars
  obtain ⟨line, column⟩ := place
  rw [show line = _ from hline, show column = _ from hcolumn]

theorem not_pointsTo_message (message : String) (place : Place) :
    ¬ PointsTo ("Error: " ++ message ++ "\n") message place := by
  rintro ⟨indent, rest, h⟩
  have hlength := congrArg String.length h
  simp only [String.length_append] at hlength
  have : "╭─[ <unknown>:".length = 14 := rfl
  omega

-- ---------------------------------------------------------------------------
-- Renderers by their documentation
-- ---------------------------------------------------------------------------

/-- Offsets are numbers of characters: what is read as the place of a character, in a text
cut into lines, is the number of that character and no other offset. -/
def Renderer.CountsCharacters (renderer : Renderer) (cutting : Cutting) : Prop :=
  ∀ {text : String} {number : Nat} {place : Place}, StandsAt cutting text.toList number place →
    ∀ offset, renderer.place? text offset = some place ↔ offset = number

/-- A report is headed by the place of its first offset. There is one at least for a span
inside the text. -/
structure Renderer.NamesStart (renderer : Renderer) : Prop where
  exists_pointsTo : ∀ {d : Diagnostic} {text : String}, d.span.start < d.span.stop →
    d.span.stop ≤ text.length →
    ∃ report place, renderer.write d text = .ok report ∧ PointsTo report d.message place
  place?_of_pointsTo : ∀ {d : Diagnostic} {text report : String} {place : Place},
    renderer.write d text = .ok report → PointsTo report d.message place →
    renderer.place? text d.span.start = some place

theorem drawing_countsCharacters : drawing.CountsCharacters atLineEnds := by
  intro text number place hplace offset
  have hat : drawing.place? text number = some place := Source.place?_of_standsAt hplace
  constructor
  · intro hoffset
    exact Source.place?_inj hoffset hat
  · rintro rfl
    exact hat

section
variable {d : Diagnostic} {text : String}

theorem lineRange?_of_inside {span : Span} (hstart : span.start ≤ text.length)
    (hstop : span.stop ≤ text.length + 1) :
    ∃ range, lineRange? (Source.ofString text) span = some range := by
  simp only [lineRange?, Source.lineAt?, Source.length_ofString, if_pos hstart]
  split
  · exact ⟨_, rfl⟩
  · rw [if_pos (by omega)]
    exact ⟨_, rfl⟩

theorem lineRange?_of_outside {span : Span} (hspan : span.start ≤ span.stop)
    (hout : text.length < span.start ∨ text.length + 1 < span.stop) :
    lineRange? (Source.ofString text) span = none := by
  simp only [lineRange?, Source.lineAt?, Source.length_ofString]
  by_cases hstart : span.start ≤ text.length
  · have hlong : ¬ span.stop ≤ span.start := by omega
    have hlast : ¬ span.stop - 1 ≤ text.length := by omega
    simp only [if_pos hstart, if_neg hlong, if_neg hlast]
    rfl
  · rw [if_neg hstart]
    rfl

theorem drawing_of_inside (hspan : d.span.start ≤ d.span.stop) (hstart : d.span.start ≤ text.length)
    (hstop : d.span.stop ≤ text.length + 1) :
    ∃ report place, drawing.write d text = .ok report ∧ PointsTo report d.message place ∧
      drawing.place? text d.span.start = some place := by
  obtain ⟨⟨first, final⟩, hrange⟩ := lineRange?_of_inside hstart hstop
  obtain ⟨place, hplace⟩ := Source.exists_place? hstart
  simp only [drawing, if_neg (Nat.not_lt.mpr hspan), excerpt, hrange, hplace]
  refine ⟨_, place, rfl, ⟨(Gutter.ofLast final).width + 2, ?_⟩, rfl⟩
  simp only [List.map_cons, String.join_cons, List.cons_append, header, Gutter.blank,
    String.append_assoc]
  exact ⟨_, rfl⟩

theorem drawing_of_outside (hspan : d.span.start ≤ d.span.stop)
    (hout : text.length < d.span.start ∨ text.length + 1 < d.span.stop) :
    drawing.write d text = .ok ("Error: " ++ d.message ++ "\n") := by
  simp [drawing, Nat.not_lt.mpr hspan, excerpt, lineRange?_of_outside hspan hout]

end

theorem drawing_namesStart : drawing.NamesStart where
  exists_pointsTo := by
    intro d text hspan hstop
    obtain ⟨report, place, hwrite, hpoints, -⟩ :=
      @drawing_of_inside d text (by omega) (by omega) (by omega)
    exact ⟨report, place, hwrite, hpoints⟩
  place?_of_pointsTo := by
    intro d text report place hwrite hpoints
    have hspan : d.span.start ≤ d.span.stop := by
      by_contra hlt
      simp [drawing, Nat.lt_of_not_le hlt] at hwrite
    by_cases hin : d.span.start ≤ text.length ∧ d.span.stop ≤ text.length + 1
    · obtain ⟨report', named, hwrite', hnamed, hplace⟩ := drawing_of_inside hspan hin.1 hin.2
      obtain rfl := Except.ok.inj (hwrite'.symm.trans hwrite)
      rw [hplace, hnamed.unique hpoints]
    · rw [drawing_of_outside hspan (by omega)] at hwrite
      obtain rfl := Except.ok.inj hwrite
      exact absurd hpoints (not_pointsTo_message _ _)

end Report

namespace Fault

open Report

-- ---------------------------------------------------------------------------
-- Rendering, by offsets in bytes
-- ---------------------------------------------------------------------------

theorem length_le_utf8Len (chars : List Char) : chars.length ≤ String.utf8Len chars := by
  induction chars with
  | nil => rfl
  | cons c chars ih =>
    have := c.utf8Size_pos
    rw [String.utf8Len_cons, List.length_cons]
    omega

theorem utf8Len_eq_length_iff {chars : List Char} :
    String.utf8Len chars = chars.length ↔ ∀ c ∈ chars, c.utf8Size = 1 := by
  induction chars with
  | nil => simp
  | cons c chars ih =>
    have := c.utf8Size_pos
    have := length_le_utf8Len chars
    rw [String.utf8Len_cons, List.length_cons, List.forall_mem_cons, ← ih]
    omega

theorem length_lt_of_utf8ByteSize_lt {text before after : String} (htext : text = before ++ after)
    (h : before.utf8ByteSize < text.utf8ByteSize) : before.length < text.length := by
  subst htext
  have hafter : after ≠ "" := by
    rintro rfl
    simp at h
  rw [String.length_append]
  have : after.length ≠ 0 := fun h0 => hafter (String.length_eq_zero_iff.mp h0)
  omega

/-- A span of a text in bytes, from one character to the end of another, and the place of
the character at which it starts. The place that the report of a fault with this span names
is that one if all characters before it are one byte long, and only then. -/
theorem renderWith_pointsTo_iff {renderer : Renderer} {cutting : Cutting}
    (hcounts : renderer.CountsCharacters cutting) (hnames : renderer.NamesStart)
    {fault : Fault} {text : String} (hspan : fault.span.start < fault.span.stop)
    (hstart : String.Pos.Raw.IsValid text ⟨fault.span.start⟩)
    (hstop : String.Pos.Raw.IsValid text ⟨fault.span.stop⟩) :
    ∃ before after place, text = before ++ after ∧
      before.utf8ByteSize = fault.span.start ∧ StandsAt cutting text.toList before.length place ∧
      (∀ report named, fault.renderWith renderer text = .ok report →
        PointsTo report fault.message named →
        (named = place ↔ ∀ c ∈ before.toList, c.utf8Size = 1)) ∧
      ((∀ c ∈ before.toList, c.utf8Size = 1) → fault.span.stop ≤ text.length →
        ∃ report, fault.renderWith renderer text = .ok report ∧
          PointsTo report fault.message place) := by
  obtain ⟨before, after, htext, hbefore⟩ := String.Pos.Raw.isValid_iff_exists_append.mp hstart
  have hbytes : before.utf8ByteSize = fault.span.start :=
    congrArg String.Pos.Raw.byteIdx hbefore.symm
  have honeByte : fault.span.start = before.length ↔ ∀ c ∈ before.toList, c.utf8Size = 1 := by
    rw [← utf8Len_eq_length_iff, String.utf8Len_toList, String.length_toList, hbytes]
  have hend : fault.span.stop ≤ text.utf8ByteSize := hstop.le_rawEndPos
  have hinside : before.length < text.length := length_lt_of_utf8ByteSize_lt htext (by omega)
  obtain ⟨place, hplace⟩ : ∃ place, StandsAt cutting text.toList before.length place :=
    exists_standsAt cutting (by rwa [String.length_toList])
  have hnamed : ∀ report named, fault.renderWith renderer text = .ok report →
      PointsTo report fault.message named →
      (named = place ↔ ∀ c ∈ before.toList, c.utf8Size = 1) := by
    intro report named hrender hpoints
    have hat : renderer.place? text fault.span.start = some named :=
      hnames.place?_of_pointsTo hrender hpoints
    rw [← honeByte, ← hcounts hplace, hat, Option.some.injEq]
  refine ⟨before, after, place, htext, hbytes, hplace, hnamed, ?_⟩
  intro hone hlast
  obtain ⟨report, named, hrender, hpoints⟩ :=
    hnames.exists_pointsTo (d := fault.diagnostic) hspan hlast
  obtain rfl := (hnamed report named hrender hpoints).mpr hone
  exact ⟨report, hrender, hpoints⟩

theorem renderWith_pointsTo_iff_negFlag :
    let fault : Fault := ⟨.typeMismatch .bool (.base "Int"), ⟨4, 8⟩⟩
    drawing.CountsCharacters atLineEnds ∧ drawing.NamesStart ∧
    fault.span.start < fault.span.stop ∧
    String.Pos.Raw.IsValid "neg flag" ⟨fault.span.start⟩ ∧
    String.Pos.Raw.IsValid "neg flag" ⟨fault.span.stop⟩ ∧
    ∃ before after place report, "neg flag" = before ++ after ∧
      before.utf8ByteSize = fault.span.start ∧
      StandsAt atLineEnds "neg flag".toList before.length place ∧
      fault.render "neg flag" = .ok report ∧ PointsTo report fault.message place := by
  intro fault
  have hstart : String.Pos.Raw.IsValid "neg flag" ⟨fault.span.start⟩ :=
    String.Pos.Raw.isValid_iff_exists_append.mpr ⟨"neg ", "flag", rfl, rfl⟩
  have hstop : String.Pos.Raw.IsValid "neg flag" ⟨fault.span.stop⟩ :=
    String.Pos.Raw.isValid_iff_exists_append.mpr ⟨"neg flag", "", rfl, rfl⟩
  refine ⟨drawing_countsCharacters, drawing_namesStart, by decide, hstart, hstop, ?_⟩
  obtain ⟨before, after, place, htext, hbytes, hplace, -, hrender⟩ :=
    renderWith_pointsTo_iff drawing_countsCharacters drawing_namesStart (by decide) hstart hstop
  have hone : ∀ c ∈ before.toList, c.utf8Size = 1 := by
    have hall : "neg flag".toList.all (·.utf8Size == 1) = true := by decide +kernel
    rw [htext, String.toList_append, List.all_append, Bool.and_eq_true] at hall
    simpa using hall.1
  obtain ⟨report, hreport, hpoints⟩ := hrender hone (by decide)
  exact ⟨before, after, place, report, htext, hbytes, hplace, hreport, hpoints⟩

/-- The first letter is two bytes long. The fault is in the word that starts at byte 3 with
the third character; the report has it at the fourth. -/
theorem render_misplaces_after_twoBytes :
    let text := "é flag"
    let fault : Fault := ⟨.typeMismatch .bool (.base "Int"), ⟨3, 7⟩⟩
    drawing.CountsCharacters atLineEnds ∧ drawing.NamesStart ∧
    text = "é " ++ "flag" ∧ "é ".utf8ByteSize = fault.span.start ∧
    text.utf8ByteSize = fault.span.stop ∧ StandsAt atLineEnds text.toList "é ".length ⟨1, 3⟩ ∧
    ∃ report, fault.render text = .ok report ∧ PointsTo report fault.message ⟨1, 4⟩ ∧
      ¬ PointsTo report fault.message ⟨1, 3⟩ := by
  intro text fault
  have hplace : drawing.place? text fault.span.start = some ⟨1, 4⟩ := by decide +kernel
  obtain ⟨report, named, hrender, hpoints, hnamed⟩ :=
    @drawing_of_inside fault.diagnostic text (by decide) (by decide) (by decide)
  obtain rfl := Option.some.inj (hplace.symm.trans hnamed)
  refine ⟨drawing_countsCharacters, drawing_namesStart, rfl, rfl, rfl,
    ⟨[], ['é', ' '], 'f', ['l', 'a', 'g'], [], by decide +kernel, rfl, rfl⟩,
    report, hrender, hpoints, ?_⟩
  intro h
  exact absurd (hpoints.unique h) (by decide)

end Fault

end TypedClosures
