import Mathlib
import MiniLisp.Proofs.Equality

/-!
# Nested texts are unambiguous

Inside a list that is printed, texts stand in double quotes and lists in parentheses, while
integers, truth values and symbols are bare words. From left to right it is always clear which of
them comes next and where it ends: at the closing quote or parenthesis, or for a word where a
separator follows. So the text of a list tells what its elements are, whatever characters the texts
among them hold.

* `Text.word_append_inj`, `Text.guarded_append_inj`: where words and quoted texts end.
* `Value.Legible`: lists of integers, truth values, texts and symbols with proper names.
* `Value.Shown`, `Value.shown_of_displayNested`: the texts of such data.
* `Value.Shown.append_inj`: where they end, and of what they are the text.
* `nested_texts_unambiguous`: what follows for the printed texts.
-/

namespace MiniLisp

namespace Text

/-- Characters that no word holds. -/
def Separates (c : Char) : Prop := c = ' ' ∨ c = '(' ∨ c = ')' ∨ c = '"'

/-- A word: some characters, none of which separates. -/
structure IsWord (cs : List Char) : Prop where
  ne_nil : cs ≠ []
  unseparated : ∀ c ∈ cs, ¬ Separates c

/-- What can follow the text of an element: nothing, a space or a closing parenthesis. -/
def Closes (r : List Char) : Prop := ∀ c ∈ r.head?, c = ' ' ∨ c = ')'

theorem closes_space (r : List Char) : Closes (' ' :: r) := by simp [Closes]

theorem closes_paren (r : List Char) : Closes (')' :: r) := by simp [Closes]

theorem Closes.separates {c : Char} {r : List Char} (h : Closes (c :: r)) : Separates c := by
  rcases h c rfl with rfl | rfl
  · exact .inl rfl
  · exact .inr (.inr (.inl rfl))

variable {c d : Char} {cs ds r r' : List Char}

theorem IsWord.append_ne_cons (h : IsWord cs) (hc : Separates c) : cs ++ r ≠ c :: r' := by
  cases cs with
  | nil => exact absurd rfl h.ne_nil
  | cons d ds =>
    intro heq
    obtain rfl : d = c := (List.cons.inj heq).1
    exact h.unseparated d (List.mem_cons_self ..) hc

/-- A word ends where a separator follows. -/
theorem word_append_inj (hcs : ∀ c ∈ cs, ¬ Separates c) (hds : ∀ c ∈ ds, ¬ Separates c)
    (hr : Closes r) (hr' : Closes r') (heq : cs ++ r = ds ++ r') : cs = ds ∧ r = r' := by
  induction cs generalizing ds with
  | nil =>
    cases ds with
    | nil => exact ⟨rfl, heq⟩
    | cons d ds =>
      obtain rfl : r = d :: (ds ++ r') := heq
      exact absurd hr.separates (hds d (List.mem_cons_self ..))
  | cons c cs ih =>
    cases ds with
    | nil =>
      obtain rfl : c :: (cs ++ r) = r' := heq
      exact absurd hr'.separates (hcs c (List.mem_cons_self ..))
    | cons d ds =>
      rw [List.forall_mem_cons] at hcs hds
      obtain ⟨rfl, hrest⟩ := List.cons.inj heq
      obtain ⟨rfl, hr⟩ := ih hcs.2 hds.2 hrest
      exact ⟨rfl, hr⟩

theorem guarded_inj (heq : guarded c ++ r = guarded d ++ r') : c = d ∧ r = r' := by
  unfold guarded at heq
  split_ifs at heq with hc hd hd
  · simpa using heq
  · obtain rfl : '\\' = d := (List.cons.inj heq).1
    exact absurd (.inr rfl) hd
  · obtain rfl : c = '\\' := (List.cons.inj heq).1
    exact absurd (.inr rfl) hc
  · simpa using heq

theorem guarded_ne_quote : guarded c ++ r ≠ '"' :: r' := by
  unfold guarded
  split_ifs with hc
  · simp
  · intro heq
    exact hc (.inl (List.cons.inj heq).1)

/-- A quoted text ends at the first double quote without a backslash before it. -/
theorem guarded_append_inj
    (heq : cs.flatMap guarded ++ '"' :: r = ds.flatMap guarded ++ '"' :: r') :
    cs = ds ∧ r = r' := by
  induction cs generalizing ds with
  | nil =>
    cases ds with
    | nil => exact ⟨rfl, (List.cons.inj heq).2⟩
    | cons d ds =>
      rw [List.flatMap_cons, List.append_assoc] at heq
      exact absurd heq.symm guarded_ne_quote
  | cons c cs ih =>
    rw [List.flatMap_cons, List.append_assoc] at heq
    cases ds with
    | nil => exact absurd heq guarded_ne_quote
    | cons d ds =>
      rw [List.flatMap_cons, List.append_assoc] at heq
      obtain ⟨rfl, hrest⟩ := guarded_inj heq
      obtain ⟨rfl, hr⟩ := ih hrest
      exact ⟨rfl, hr⟩

end Text

/-! ## Words for integers, truth values and symbols -/

theorem decimalText_eq_repr (n : Int) : decimalText n = n.repr := by
  cases n with
  | ofNat n => simp [decimalText, Int.repr]
  | negSucc n => simp [decimalText, Int.repr, Int.negSucc_lt_zero]

theorem mem_decimalText {n : Int} {c : Char} (h : c ∈ (decimalText n).toList) :
    c = '-' ∨ c.isDigit = true := by
  rw [decimalText, String.toList_append, List.mem_append, Nat.toList_repr] at h
  rcases h with h | h
  · split_ifs at h
    · exact .inl (List.mem_singleton.mp h)
    · cases h
  · exact .inr (Nat.isDigit_of_mem_toDigits (by decide) (by decide) h)

theorem decimalText_isWord (n : Int) : Text.IsWord (decimalText n).toList where
  ne_nil := by
    rw [decimalText, String.toList_append, Nat.toList_repr]
    exact List.append_ne_nil_of_right_ne_nil _ Nat.toDigits_ne_nil
  unseparated c hc hsep := by
    rcases mem_decimalText hc with rfl | hdigit
    · revert hsep
      simp [Text.Separates]
    · rcases hsep with rfl | rfl | rfl | rfl <;> cases hdigit

/-- The word for a truth value. -/
def truthWord (t : Bool) : String := if t then "#t" else "#f"

theorem truthWord_isWord (t : Bool) : Text.IsWord (truthWord t).toList := by
  cases t <;> exact ⟨by decide, by simp [truthWord, Text.Separates]⟩

theorem truthWord_ne_decimalText (t : Bool) (n : Int) : truthWord t ≠ decimalText n := by
  intro heq
  have hhash : '#' ∈ (decimalText n).toList := by
    rw [← heq]
    cases t <;> decide
  rcases mem_decimalText hhash with h | h <;> cases h

theorem truthWord_injective : Function.Injective truthWord := by decide

/-- A name that stands for a symbol wherever it is printed: a word that is neither a truth value nor
    the decimal text of an integer. -/
structure Text.NamesSymbol (x : String) : Prop where
  isWord : IsWord x.toList
  ne_truth : ∀ t, x ≠ truthWord t
  ne_decimal : ∀ n, x ≠ decimalText n

namespace Value

/-- An integer, a truth value, a text, a list, or a symbol with a name that stands for it. -/
def IsLegible : Datum → Prop
  | int _ | bool _ | text _ | list _ _ => True
  | symbol x => Text.NamesSymbol x
  | _ => False

/-- A value is made of such values only, at any depth. -/
def Legible (v : Datum) : Prop := v.Each IsLegible

/-- The word that stands for a value. -/
def word? : Datum → Option String
  | int n => some (decimalText n)
  | bool t => some (truthWord t)
  | symbol x => some x
  | _ => none

variable {v w : Datum} {x : String} {b b' : Nat} {s t : String} {cs ds r r' : List Char}

theorem IsLegible.isWord (hv : v.IsLegible) (hx : v.word? = some x) : Text.IsWord x.toList := by
  cases v with
  | int n =>
    cases hx
    exact decimalText_isWord n
  | bool t =>
    cases hx
    exact truthWord_isWord t
  | symbol y =>
    cases hx
    exact hv.isWord
  | _ => cases hx

/-- No word stands for two values. -/
theorem IsLegible.eq_of_word? (hv : v.IsLegible) (hw : w.IsLegible) (hx : v.word? = some x)
    (hx' : w.word? = some x) : v = w := by
  cases v with
  | int m =>
    cases hx
    cases w with
    | int n =>
      rw [word?, Option.some.injEq, decimalText_eq_repr, decimalText_eq_repr, Int.repr_inj] at hx'
      rw [hx']
    | bool t => exact absurd (Option.some.inj hx') (truthWord_ne_decimalText t m)
    | symbol y => exact absurd (Option.some.inj hx') (hw.ne_decimal m)
    | _ => cases hx'
  | bool t =>
    cases hx
    cases w with
    | int n => exact absurd (Option.some.inj hx').symm (truthWord_ne_decimalText t n)
    | bool t' => rw [truthWord_injective (Option.some.inj hx')]
    | symbol y => exact absurd (Option.some.inj hx') (hw.ne_truth t)
    | _ => cases hx'
  | symbol y =>
    cases hx
    cases w with
    | int n => exact absurd (Option.some.inj hx').symm (hv.ne_decimal n)
    | bool t => exact absurd (Option.some.inj hx').symm (hv.ne_truth t)
    | symbol z => rw [Option.some.inj hx']
    | _ => cases hx'
  | _ => cases hx

/-! ## The texts of legible data -/

/-- The texts of legible data inside a list. -/
inductive Shown : Datum → List Char → Prop
  | word {v : Datum} {x : String} (legible : v.IsLegible) (word : v.word? = some x) :
      Shown v x.toList
  | text (s : String) : Shown (.text s) ('"' :: s.toList.flatMap Text.guarded ++ ['"'])
  | list {i : ObjectId} {xs : List Datum} {css : List (List Char)} (length : xs.length = css.length)
      (items : ∀ x cs, (x, cs) ∈ xs.zip css → Shown x cs) :
      Shown (.list i xs) ('(' :: [' '].intercalate css ++ [')'])

theorem integerText_ok {n : Int} (h : integerText n = .ok s) : s = decimalText n := by
  unfold integerText integerText? at h
  by_cases hn : n.natAbs < digitBound
  · rw [if_pos hn] at h
    cases h
    rfl
  · rw [if_neg hn] at h
    cases h

theorem displayNested_of_word? (hx : v.word? = some x) (hs : v.displayNested b = .ok s) :
    s = x := by
  cases b with
  | zero => cases hs
  | succ b =>
    cases v with
    | int n =>
      cases hx
      exact integerText_ok hs
    | bool t =>
      cases hx
      cases t <;> cases hs <;> rfl
    | symbol y =>
      cases hx
      cases hs
      rfl
    | _ => cases hx

theorem shown_of_displayNested (hv : v.Legible) (hs : v.displayNested b = .ok s) :
    Shown v s.toList := by
  induction b generalizing v s with
  | zero => cases hs
  | succ b ih =>
    cases v with
    | int n | bool t | symbol y =>
      rw [displayNested_of_word? rfl hs]
      exact .word hv rfl
    | text u =>
      cases hs
      rw [Text.doubleQuoted_eq, String.toList_ofList]
      exact .text u
    | list i xs =>
      obtain ⟨texts, htexts, h⟩ := Outcome.bind_ok_iff.mp hs
      cases h
      obtain ⟨hlength, hparts⟩ := Outcome.mapM_ok htexts
      have hitems := eachOf_iff.mp hv.2
      have htext : ("(" ++ " ".intercalate texts ++ ")").toList =
          '(' :: [' '].intercalate (texts.map String.toList) ++ [')'] := by simp
      rw [htext]
      refine .list (by simp [hlength]) fun x cs hmem => ?_
      rw [List.zip_map_right, List.mem_map] at hmem
      obtain ⟨⟨y, u⟩, hyu, heq⟩ := hmem
      cases heq
      exact ih (hitems y (List.of_mem_zip hyu).1) (hparts y u hyu)
    | tuple i xs => exact hv.1.elim
    | _ => exact hv.elim

/-! ## Where the texts end -/

/-- The texts of elements, with a space before each. -/
def spaced (css : List (List Char)) : List Char := css.flatMap (' ' :: ·)

theorem intercalate_cons (cs : List Char) (css : List (List Char)) :
    [' '].intercalate (cs :: css) = cs ++ spaced css := by
  induction css generalizing cs with
  | nil => simp [spaced]
  | cons ds css ih =>
    rw [List.intercalate_cons_cons, ih]
    simp [spaced]

theorem closes_spaced (css : List (List Char)) (r : List Char) :
    Text.Closes (spaced css ++ ')' :: r) := by
  cases css with
  | nil => exact Text.closes_paren r
  | cons cs css => exact Text.closes_space _

theorem Shown.append_ne_paren (h : Shown v cs) : cs ++ r ≠ ')' :: r' := by
  cases h with
  | word hv hx => exact (hv.isWord hx).append_ne_cons (.inr (.inr (.inl rfl)))
  | text s => simp
  | list => simp

/-- A value is what its text is the text of, wherever this text may end. -/
structure Determined (v : Datum) (cs : List Char) : Prop where
  shown : Shown v cs
  unique : ∀ {w : Datum} {ds r r' : List Char}, Shown w ds → Text.Closes r → Text.Closes r' →
    cs ++ r = ds ++ r' → SameContent v w ∧ r = r'

variable {xs ys : List Datum} {css dss : List (List Char)}

/-- Elements that follow a space can be read back one by one. -/
theorem spaced_append_inj (hxs : List.Forall₂ Determined xs css) (hys : List.Forall₂ Shown ys dss)
    (heq : spaced css ++ ')' :: r = spaced dss ++ ')' :: r') :
    List.Forall₂ SameContent xs ys ∧ r = r' := by
  induction hxs generalizing ys dss with
  | nil =>
    cases hys with
    | nil => exact ⟨.nil, (List.cons.inj heq).2⟩
    | cons => exact absurd (List.cons.inj heq).1 (by decide)
  | cons hx _ ih =>
    cases hys with
    | nil => exact absurd (List.cons.inj heq).1 (by decide)
    | cons hy hys =>
      simp only [spaced, List.flatMap_cons, List.cons_append, List.append_assoc,
        List.cons.injEq, true_and] at heq
      obtain ⟨hsame, hrest⟩ := hx.unique hy (closes_spaced _ _) (closes_spaced _ _) heq
      obtain ⟨hall, hr⟩ := ih hys hrest
      exact ⟨.cons hsame hall, hr⟩

/-- The elements of a list can be read back one by one. -/
theorem intercalate_append_inj (hxs : List.Forall₂ Determined xs css)
    (hys : List.Forall₂ Shown ys dss)
    (heq : [' '].intercalate css ++ ')' :: r = [' '].intercalate dss ++ ')' :: r') :
    List.Forall₂ SameContent xs ys ∧ r = r' := by
  cases hxs with
  | nil =>
    cases hys with
    | nil => exact ⟨.nil, (List.cons.inj heq).2⟩
    | cons hy _ =>
      rw [intercalate_cons, List.append_assoc] at heq
      exact absurd heq.symm hy.append_ne_paren
  | cons hx hxs =>
    rw [intercalate_cons, List.append_assoc] at heq
    cases hys with
    | nil => exact absurd heq hx.shown.append_ne_paren
    | cons hy hys =>
      rw [intercalate_cons, List.append_assoc] at heq
      obtain ⟨hsame, hrest⟩ := hx.unique hy (closes_spaced _ _) (closes_spaced _ _) heq
      obtain ⟨hall, hr⟩ := spaced_append_inj hxs hys hrest
      exact ⟨.cons hsame hall, hr⟩

theorem sameContent_refl (v : Datum) : SameContent v v :=
  Alike.refl (fun _ => trivial) (fun _ _ _ => ⟨rfl, rfl⟩) v

theorem Shown.append_inj (h : Shown v cs) (h' : Shown w ds) (hr : Text.Closes r)
    (hr' : Text.Closes r') (heq : cs ++ r = ds ++ r') : SameContent v w ∧ r = r' := by
  induction h generalizing w ds r r' with
  | word hv hx =>
    have hword := hv.isWord hx
    cases h' with
    | word hw hy =>
      have hword' := hw.isWord hy
      obtain ⟨htext, rfl⟩ :=
        Text.word_append_inj hword.unseparated hword'.unseparated hr hr' heq
      obtain rfl := String.toList_inj.mp htext
      obtain rfl := hv.eq_of_word? hw hx hy
      exact ⟨sameContent_refl _, rfl⟩
    | text t => exact absurd heq (hword.append_ne_cons (.inr (.inr (.inr rfl))))
    | list => exact absurd heq (hword.append_ne_cons (.inr (.inl rfl)))
  | text s =>
    cases h' with
    | word hw hy =>
      exact absurd heq.symm ((hw.isWord hy).append_ne_cons (.inr (.inr (.inr rfl))))
    | text t =>
      simp only [List.cons_append, List.append_assoc, List.cons.injEq, true_and,
        List.nil_append] at heq
      obtain ⟨htext, rfl⟩ := Text.guarded_append_inj heq
      obtain rfl := String.toList_inj.mp htext
      exact ⟨sameContent_refl _, rfl⟩
    | list => exact absurd (List.cons.inj heq).1 (by decide)
  | list length items ih =>
    cases h' with
    | word hw hy => exact absurd heq.symm ((hw.isWord hy).append_ne_cons (.inr (.inl rfl)))
    | text t => exact absurd (List.cons.inj heq).1 (by decide)
    | list length' items' =>
      simp only [List.cons_append, List.append_assoc, List.cons.injEq, true_and,
        List.nil_append] at heq
      have hxs : List.Forall₂ Determined _ _ :=
        List.forall₂_iff_zip.mpr ⟨length, fun hmem => ⟨items _ _ hmem, ih _ _ hmem⟩⟩
      have hys : List.Forall₂ Shown _ _ :=
        List.forall₂_iff_zip.mpr ⟨length', fun hmem => items' _ _ hmem⟩
      obtain ⟨hall, hr⟩ := intercalate_append_inj hxs hys heq
      obtain ⟨hlen, hsame⟩ := List.forall₂_iff_zip.mp hall
      exact ⟨.list trivial hlen fun x y hmem => hsame hmem, hr⟩

theorem SameContent.displayNested_eq_of_le (h : SameContent v w) (hle : b ≤ b')
    (hs : v.displayNested b = .ok s) (ht : w.displayNested b' = .ok t) : s = t := by
  have hb : Stop.Within (· = .exhausted) b b' := .inr ⟨rfl, hle⟩
  rcases Alike.displayNested h hb with ⟨_, hstop, _⟩ | heq
  · rw [hs] at hstop
    cases hstop
  · rw [hs, ht] at heq
    exact heq

/-- Copies of a value have the same text. -/
theorem SameContent.displayNested_eq (h : SameContent v w) (hs : v.displayNested b = .ok s)
    (ht : w.displayNested b' = .ok t) : s = t := by
  rcases Nat.le_total b b' with hle | hle
  · exact h.displayNested_eq_of_le hle hs ht
  · exact (h.symm.displayNested_eq_of_le hle ht hs).symm

end Value

/-- Lists of integers, truth values, texts and properly named symbols, at any depth: two of them
    have the same text inside a list exactly if they are the same datum. The text tells also where
    it ends: where two of them are followed by something that is empty or starts with a space or a
    closing parenthesis, and the whole is the same, both parts are. -/
theorem nested_texts_unambiguous {v w : Datum} (hv : v.Legible) (hw : w.Legible) {b b' : Nat}
    {s t : String} (hs : v.displayNested b = .ok s) (ht : w.displayNested b' = .ok t) :
    (s = t ↔ v.SameContent w) ∧
      ∀ r r' : String, Text.Closes r.toList → Text.Closes r'.toList → s ++ r = t ++ r' →
        v.SameContent w ∧ r = r' := by
  have hshown := Value.shown_of_displayNested hv hs
  have hshown' := Value.shown_of_displayNested hw ht
  have happend : ∀ r r' : String, Text.Closes r.toList → Text.Closes r'.toList → s ++ r = t ++ r' →
      v.SameContent w ∧ r = r' := by
    intro r r' hr hr' heq
    have hlist : s.toList ++ r.toList = t.toList ++ r'.toList := by
      rw [← String.toList_append, heq, String.toList_append]
    obtain ⟨hsame, hrest⟩ := hshown.append_inj hshown' hr hr' hlist
    exact ⟨hsame, String.toList_inj.mp hrest⟩
  have hempty : Text.Closes "".toList := by simp [Text.Closes]
  refine ⟨⟨fun heq => ?_, fun hsame => hsame.displayNested_eq hs ht⟩, happend⟩
  exact (happend "" "" hempty hempty (by rw [heq])).1

namespace Unambiguity

/-- A list of an integer, a symbol, and a text that holds what separates texts in a list. -/
def quoting (id : ObjectId) : Datum := .list id [.int (-5), .symbol "-5a", .text "b\" \"c)"]

/-- A list that has the two texts on both sides of such a separation. -/
def separate : Datum := .list 0 [.int (-5), .symbol "-5a", .text "b", .text "c)"]

theorem namesSymbol : Text.NamesSymbol "-5a" where
  isWord := ⟨by decide, by simp [Text.Separates]⟩
  ne_truth := by decide
  ne_decimal n heq := by
    have hmem : 'a' ∈ (decimalText n).toList := by
      rw [← heq]
      decide
    rcases mem_decimalText hmem with h | h <;> cases h

theorem quoting_legible (id : ObjectId) : (quoting id).Legible := by
  simp [quoting, Value.Legible, Value.Each, Value.EachOf, Value.IsLegible, namesSymbol]

theorem separate_legible : separate.Legible := by
  simp [separate, Value.Legible, Value.Each, Value.EachOf, Value.IsLegible, namesSymbol]

end Unambiguity

/-- A text that holds double quotes is told from two texts, and a list from no copy of it. -/
theorem nested_texts_unambiguous_quotes :
    (Unambiguity.quoting 1).displayNested 2 = .ok "(-5 -5a \"b\\\" \\\"c)\")" ∧
    (Unambiguity.quoting 2).displayNested 3 = .ok "(-5 -5a \"b\\\" \\\"c)\")" ∧
    Unambiguity.separate.displayNested 2 = .ok "(-5 -5a \"b\" \"c)\")" ∧
    (Unambiguity.quoting 1).SameContent (Unambiguity.quoting 2) ∧
    ¬ (Unambiguity.quoting 1).SameContent Unambiguity.separate := by
  have hquoting : (Unambiguity.quoting 1).displayNested 2 =
      .ok "(-5 -5a \"b\\\" \\\"c)\")" := by decide +kernel
  have hcopy : (Unambiguity.quoting 2).displayNested 3 =
      .ok "(-5 -5a \"b\\\" \\\"c)\")" := by decide +kernel
  have hseparate : Unambiguity.separate.displayNested 2 = .ok "(-5 -5a \"b\" \"c)\")" := by
    decide +kernel
  have hlegible := Unambiguity.quoting_legible
  refine ⟨hquoting, hcopy, hseparate, ?_, fun hsame => ?_⟩
  · have hclose : Text.Closes " d)".toList := Text.closes_space _
    exact ((nested_texts_unambiguous (hlegible 1) (hlegible 2) hquoting hcopy).2 " d)" " d)" hclose
      hclose rfl).1
  · have heq := (nested_texts_unambiguous (hlegible 1) Unambiguity.separate_legible hquoting
      hseparate).1.mpr hsame
    exact absurd heq (by decide)

end MiniLisp
