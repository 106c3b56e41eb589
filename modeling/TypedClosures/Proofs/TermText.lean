import TypedClosures.Proofs.TypeText

/-!
# The text of a term can be told apart

Conditionals and lambdas are written without parentheses, and the words between the parts
of a term may be names of variables. All the same the text determines the term up to
spans, if names hold no blank and no parenthesis and no variable looks like the beginning
of a conditional or of a lambda (`text_eq_iff_alike`).

The reason is that a term is known to be at its end without a look at what follows: how it
begins says of which kind it is (`opening_text`), and with the kind, how many parts it has
and which signs stand between them (`Delimited`).
-/

namespace TypedClosures

namespace Term

mutual

/-- All names can be read in a text, and a variable is not taken for another kind of term. -/
def Plain : Term → Prop
  | .var _ x => Name.Plain x ∧ x ≠ "if" ∧ x.toList.head? ≠ some '\\'
  | .cond _ c a b => c.Plain ∧ a.Plain ∧ b.Plain
  | .app _ f xs => f.Plain ∧ PlainList xs
  | .lam _ ps b => (∀ p ∈ ps, Name.Plain p.name ∧ p.ty.Plain) ∧ b.Plain

def PlainList : List Term → Prop
  | [] => True
  | t :: ts => t.Plain ∧ PlainList ts

end

mutual

def decPlain : (t : Term) → Decidable t.Plain
  | .var _ x =>
    inferInstanceAs (Decidable (Name.Plain x ∧ x ≠ "if" ∧ x.toList.head? ≠ some '\\'))
  | .cond _ c a b =>
    have := decPlain c
    have := decPlain a
    have := decPlain b
    inferInstanceAs (Decidable (c.Plain ∧ a.Plain ∧ b.Plain))
  | .app _ f xs =>
    have := decPlain f
    have := decPlainList xs
    inferInstanceAs (Decidable (f.Plain ∧ PlainList xs))
  | .lam _ ps b =>
    have := decPlain b
    inferInstanceAs (Decidable ((∀ p ∈ ps, Name.Plain p.name ∧ p.ty.Plain) ∧ b.Plain))

def decPlainList : (ts : List Term) → Decidable (PlainList ts)
  | [] => .isTrue trivial
  | t :: ts =>
    have := decPlain t
    have := decPlainList ts
    inferInstanceAs (Decidable (t.Plain ∧ PlainList ts))

end

instance (t : Term) : Decidable t.Plain := decPlain t

-- ---------------------------------------------------------------------------
-- How a text begins
-- ---------------------------------------------------------------------------

inductive Kind
  | var
  | cond
  | app
  | lam
  deriving DecidableEq

def kind : Term → Kind
  | .var .. => .var
  | .cond .. => .cond
  | .app .. => .app
  | .lam .. => .lam

def opening (cs : List Char) : Kind :=
  if cs.head? = some '(' then .app
  else if cs.head? = some '\\' then .lam
  else if (splitName cs).1 = "if" then .cond
  else .var

section
variable (s : Span) (rest : List Char)

theorem toList_text_cond (c a b : Term) :
    (Term.cond s c a b).text.toList ++ rest =
      "if".toList ++ ' ' :: (c.text.toList ++ ' ' :: ("then ".toList ++ (a.text.toList ++
        ' ' :: ("else ".toList ++ (b.text.toList ++ rest))))) := by
  simp only [text, String.toList_append, List.append_assoc]
  rfl

theorem toList_text_app (f : Term) (xs : List Term) :
    (Term.app s f xs).text.toList ++ rest =
      '(' :: (f.text.toList ++ ((operandsText xs).toList ++ ')' :: rest)) := by
  simp only [text, String.toList_append, List.append_assoc]
  rfl

theorem toList_operandsText_cons (x : Term) (xs : List Term) :
    (operandsText (x :: xs)).toList ++ rest =
      ' ' :: (x.text.toList ++ ((operandsText xs).toList ++ rest)) := by
  simp only [operandsText, String.toList_append, List.append_assoc]
  rfl

theorem toList_text_lam (ps : List Binding) (b : Term) :
    (Term.lam s ps b).text.toList ++ rest =
      '\\' :: ((paramsText ps).toList ++ ("-> ".toList ++ (b.text.toList ++ rest))) := by
  simp only [text, String.toList_append, List.append_assoc]
  rfl

theorem toList_paramsText_cons (p : Binding) (ps : List Binding) :
    (paramsText (p :: ps)).toList ++ rest =
      '(' :: (p.name.toList ++ ' ' :: (": ".toList ++ (p.ty.text.toList ++
        ')' :: ' ' :: ((paramsText ps).toList ++ rest)))) := by
  simp only [paramsText, List.map_cons, String.join_cons, String.toList_append, List.append_assoc]
  rfl

end

/-- The kind is read off the beginning. After a term there is the blank before the next
part, or the parenthesis that closes an application, or nothing. -/
theorem opening_text {t : Term} (ht : t.Plain) {rest : List Char}
    (hrest : GoesOn [' ', ')'] rest) :
    opening (t.text.toList ++ rest) = t.kind := by
  cases t with
  | var s x =>
    obtain ⟨hx, hif, hlam⟩ := ht
    have hparen : (x.toList ++ rest).head? ≠ some '(' :=
      head?_ne_of_plain hx (by decide) (hrest.head?_ne (by decide))
    have hslash : (x.toList ++ rest).head? ≠ some '\\' := by
      cases hcs : x.toList with
      | nil => exact hrest.head?_ne (by decide)
      | cons c cs =>
        rw [hcs] at hlam
        exact hlam
    rw [text, opening, if_neg hparen, if_neg hslash,
      splitName_append hx (hrest.mono (by decide)), if_neg hif]
    rfl
  | cond s c a b =>
    rw [toList_text_cond, opening, splitName_append (by decide) (goesOn_cons (by decide) _)]
    rfl
  | app s f xs =>
    rw [toList_text_app]
    rfl
  | lam s ps b =>
    rw [toList_text_lam]
    rfl

-- ---------------------------------------------------------------------------
-- Where a text ends
-- ---------------------------------------------------------------------------

/-- In a text that begins with the term, no other term can be read, and it ends in one
place only. -/
def Delimited (t : Term) : Prop :=
  ∀ (u : Term) (rest rest' : List Char), t.Plain → u.Plain →
    GoesOn [' ', ')'] rest → GoesOn [' ', ')'] rest' →
    t.text.toList ++ rest = u.text.toList ++ rest' → t.bare = u.bare ∧ rest = rest'

theorem kind_eq {t u : Term} (ht : t.Plain) (hu : u.Plain) {rest rest' : List Char}
    (hrest : GoesOn [' ', ')'] rest) (hrest' : GoesOn [' ', ')'] rest')
    (h : t.text.toList ++ rest = u.text.toList ++ rest') : t.kind = u.kind := by
  rw [← opening_text ht hrest, h, opening_text hu hrest']

theorem goesOn_blank (rest : List Char) : GoesOn [' ', ')'] (' ' :: rest) :=
  goesOn_cons (by decide) rest

theorem goesOn_operands (xs : List Term) (rest : List Char) :
    GoesOn [' ', ')'] ((operandsText xs).toList ++ ')' :: rest) := by
  cases xs with
  | nil => exact goesOn_cons (by decide) rest
  | cons x xs =>
    rw [toList_operandsText_cons]
    exact goesOn_blank _

theorem delimited_var (s : Span) (x : Name) : Delimited (.var s x) := by
  intro u rest rest' ht hu hrest hrest' h
  have hkind := kind_eq ht hu hrest hrest' h
  cases u with
  | var s' y =>
    obtain ⟨rfl, rfl⟩ :=
      Name.append_inj ht.1 hu.1 (hrest.mono (by decide)) (hrest'.mono (by decide)) h
    exact ⟨rfl, rfl⟩
  | _ => cases hkind

theorem delimited_cond (s : Span) {c a b : Term} (hc : Delimited c) (ha : Delimited a)
    (hb : Delimited b) : Delimited (.cond s c a b) := by
  intro u rest rest' ht hu hrest hrest' h
  have hkind := kind_eq ht hu hrest hrest' h
  cases u with
  | cond s' c' a' b' =>
    obtain ⟨hcp, hap, hbp⟩ := ht
    obtain ⟨hcp', hap', hbp'⟩ := hu
    rw [toList_text_cond, toList_text_cond] at h
    have hcs := (List.cons.inj (List.append_cancel_left h)).2
    obtain ⟨hc', hthen⟩ := hc c' _ _ hcp hcp' (goesOn_blank _) (goesOn_blank _) hcs
    have has := List.append_cancel_left (List.cons.inj hthen).2
    obtain ⟨ha', helse⟩ := ha a' _ _ hap hap' (goesOn_blank _) (goesOn_blank _) has
    have hbs := List.append_cancel_left (List.cons.inj helse).2
    obtain ⟨hb', rfl⟩ := hb b' _ _ hbp hbp' hrest hrest' hbs
    exact ⟨by rw [bare, bare, hc', ha', hb'], rfl⟩
  | _ => cases hkind

theorem delimited_operands {xs : List Term} (hxs : ∀ x ∈ xs, Delimited x) {ys : List Term}
    {rest rest' : List Char} (hx : PlainList xs) (hy : PlainList ys)
    (h : (operandsText xs).toList ++ ')' :: rest = (operandsText ys).toList ++ ')' :: rest') :
    bareList xs = bareList ys ∧ rest = rest' := by
  induction xs generalizing ys with
  | nil =>
    cases ys with
    | nil => exact ⟨rfl, (List.cons.inj h).2⟩
    | cons y ys =>
      rw [toList_operandsText_cons] at h
      exact absurd (List.cons.inj h).1 (by decide)
  | cons x xs ih =>
    cases ys with
    | nil =>
      rw [toList_operandsText_cons] at h
      exact absurd (List.cons.inj h).1 (by decide)
    | cons y ys =>
      rw [toList_operandsText_cons, toList_operandsText_cons] at h
      obtain ⟨hbare, hrest⟩ := hxs x List.mem_cons_self y _ _ hx.1 hy.1 (goesOn_operands xs rest)
        (goesOn_operands ys rest') (List.cons.inj h).2
      obtain ⟨hbares, rfl⟩ := ih (fun z hz => hxs z (List.mem_cons_of_mem x hz)) hx.2 hy.2 hrest
      exact ⟨by rw [bareList, bareList, hbare, hbares], rfl⟩

theorem delimited_app (s : Span) {f : Term} {xs : List Term} (hf : Delimited f)
    (hxs : ∀ x ∈ xs, Delimited x) : Delimited (.app s f xs) := by
  intro u rest rest' ht hu hrest hrest' h
  have hkind := kind_eq ht hu hrest hrest' h
  cases u with
  | app s' g ys =>
    rw [toList_text_app, toList_text_app] at h
    obtain ⟨hfg, hops⟩ := hf g _ _ ht.1 hu.1 (goesOn_operands xs rest) (goesOn_operands ys rest')
      (List.cons.inj h).2
    obtain ⟨hbares, rfl⟩ := delimited_operands hxs ht.2 hu.2 hops
    exact ⟨by rw [bare, bare, hfg, hbares], rfl⟩
  | _ => cases hkind

theorem params_append_inj {ps qs : List Binding} {rest rest' : List Char}
    (hps : ∀ p ∈ ps, Name.Plain p.name ∧ p.ty.Plain)
    (hqs : ∀ q ∈ qs, Name.Plain q.name ∧ q.ty.Plain)
    (h : (paramsText ps).toList ++ ("-> ".toList ++ rest) =
      (paramsText qs).toList ++ ("-> ".toList ++ rest')) : ps = qs ∧ rest = rest' := by
  induction ps generalizing qs with
  | nil =>
    cases qs with
    | nil => exact ⟨rfl, List.append_cancel_left h⟩
    | cons q qs =>
      rw [toList_paramsText_cons] at h
      exact absurd (List.cons.inj h).1 (by decide)
  | cons p ps ih =>
    cases qs with
    | nil =>
      rw [toList_paramsText_cons] at h
      exact absurd (List.cons.inj h).1 (by decide)
    | cons q qs =>
      obtain ⟨⟨hp, hpty⟩, hps⟩ := List.forall_mem_cons.mp hps
      obtain ⟨⟨hq, hqty⟩, hqs⟩ := List.forall_mem_cons.mp hqs
      rw [toList_paramsText_cons, toList_paramsText_cons] at h
      obtain ⟨hname, hcolon⟩ := Name.append_inj hp hq (goesOn_cons (by decide) _)
        (goesOn_cons (by decide) _) (List.cons.inj h).2
      have htys := List.append_cancel_left (List.cons.inj hcolon).2
      obtain ⟨hty, hparen⟩ := Ty.text_append_inj hpty hqty (goesOn_cons (by decide) _)
        (goesOn_cons (by decide) _) htys
      have hnext := (List.cons.inj (List.cons.inj hparen).2).2
      obtain ⟨rfl, rfl⟩ := ih hps hqs hnext
      obtain ⟨name, ty⟩ := p
      exact ⟨by rw [show name = _ from hname, show ty = _ from hty], rfl⟩

theorem delimited_lam (s : Span) (ps : List Binding) {b : Term} (hb : Delimited b) :
    Delimited (.lam s ps b) := by
  intro u rest rest' ht hu hrest hrest' h
  have hkind := kind_eq ht hu hrest hrest' h
  cases u with
  | lam s' qs b' =>
    rw [toList_text_lam, toList_text_lam] at h
    obtain ⟨rfl, hbody⟩ := params_append_inj ht.1 hu.1 (List.cons.inj h).2
    obtain ⟨hb', rfl⟩ := hb b' _ _ ht.2 hu.2 hrest hrest' hbody
    exact ⟨by rw [bare, bare, hb'], rfl⟩
  | _ => cases hkind

theorem delimited (t : Term) : Delimited t := by
  induction t using Term.induct with
  | var s x => exact delimited_var s x
  | cond s c a b hc ha hb => exact delimited_cond s hc ha hb
  | app s f xs hf hxs => exact delimited_app s hf hxs
  | lam s ps b hb => exact delimited_lam s ps hb

theorem operandsText_bare {xs : List Term} (h : ∀ x ∈ xs, x.bare.text = x.text) :
    operandsText (bareList xs) = operandsText xs := by
  induction xs with
  | nil => rfl
  | cons x xs ih =>
    rw [bareList, operandsText, operandsText, h x List.mem_cons_self,
      ih fun y hy => h y (List.mem_cons_of_mem x hy)]

theorem text_bare (t : Term) : t.bare.text = t.text := by
  induction t using Term.induct with
  | var s x => rfl
  | cond s c a b hc ha hb => rw [bare, text, text, hc, ha, hb]
  | app s f xs hf hxs => rw [bare, text, text, hf, operandsText_bare hxs]
  | lam s ps b hb => rw [bare, text, text, hb]

end Term

/-- Two terms with plain names have the same text exactly if they differ in spans alone. -/
theorem text_eq_iff_alike {t u : Term} (ht : t.Plain) (hu : u.Plain) :
    t.text = u.text ↔ t.Alike u := by
  constructor
  · intro h
    exact (t.delimited u [] [] ht hu (goesOn_nil _) (goesOn_nil _) (by rw [h])).1
  · intro h
    rw [← t.text_bare, show t.bare = u.bare from h, u.text_bare]

/-- A conditional between words that are names here, an empty name, a lambda without
parameters, and a type that looks like the sign before a body. The two terms differ in
their spans, and a third one in where its conditional ends. -/
theorem text_eq_iff_alike_words :
    let t : Term := .app ⟨0, 9⟩ (.cond ⟨1, 8⟩ (.var ⟨2, 3⟩ "then") (.var ⟨4, 5⟩ "else")
      (.lam ⟨5, 6⟩ [] (.var ⟨6, 7⟩ ""))) [.lam ⟨7, 8⟩ [⟨"", .base "->"⟩] (.var ⟨8, 8⟩ "->")]
    let u : Term := .app .none (.cond .none (.var .none "then") (.var .none "else")
      (.lam .none [] (.var .none ""))) [.lam .none [⟨"", .base "->"⟩] (.var .none "->")]
    let v : Term := .app .none (.cond .none (.var .none "then") (.var .none "else")
      (.lam .none [] (.app .none (.var .none "")
        [.lam .none [⟨"", .base "->"⟩] (.var .none "->")]))) []
    t.Plain ∧ u.Plain ∧ v.Plain ∧ t.text = "(if then then else else \\->  \\( : ->) -> ->)" ∧
      t.text = u.text ∧ t.Alike u ∧ t.text ≠ v.text := by
  intro t u v
  have ht : t.Plain := by decide
  have hu : u.Plain := by decide
  have hv : v.Plain := by decide
  have htu : t.Alike u := by decide
  have htv : ¬ t.Alike v := by decide
  refine ⟨ht, hu, hv, by decide, (text_eq_iff_alike ht hu).mpr htu, htu, ?_⟩
  exact fun h => htv ((text_eq_iff_alike ht hv).mp h)

end TypedClosures
