import Lox.Syntax.Parenthesized

/-!
Forms. The text of a tree is that of a form: a word, a quoted string, or forms in parentheses. A text is
the text of at most one form, because words have no character that ends them and strings no quote.
-/
namespace Lox

inductive Form where
  | word (text : String)
  | quoted (text : String)
  | list (items : List Form)

namespace Form

mutual

def text : Form → List Char
  | word text => text.toList
  | quoted text => '"' :: (text.toList ++ ['"'])
  | list items => '(' :: itemsText items

def itemsText : List Form → List Char
  | [] => [')']
  | f :: rest => f.text ++ restText rest

def restText : List Form → List Char
  | [] => [')']
  | f :: rest => ' ' :: (f.text ++ restText rest)

end

def isMark (c : Char) : Bool := c = ' ' || c = '(' || c = ')' || c = '"'

/-- A text that nothing can be confused with as a word. -/
structure IsWord (text : String) : Prop where
  ne_nil : text.toList ≠ []
  plain : ∀ c ∈ text.toList, isMark c = false

mutual

/-- Words are words, and strings have no quotes in them. -/
def Neat : Form → Prop
  | word text => IsWord text
  | quoted text => '"' ∉ text.toList
  | list items => NeatAll items

def NeatAll : List Form → Prop
  | [] => True
  | f :: rest => f.Neat ∧ NeatAll rest

end

def Stops (rest : List Char) : Prop := ∀ c ∈ rest.head?, isMark c = true

theorem stops_restText (items : List Form) (rest : List Char) : Stops (restText items ++ rest) := by
  cases items <;> · rintro c ⟨⟩; rfl

theorem append_inj_of_test {p : Char → Bool} {front front' rest rest' : List Char}
    (hfront : ∀ c ∈ front, p c = true) (hfront' : ∀ c ∈ front', p c = true)
    (hrest : ∀ c ∈ rest.head?, p c = false) (hrest' : ∀ c ∈ rest'.head?, p c = false)
    (h : front ++ rest = front' ++ rest') : front = front' ∧ rest = rest' := by
  have hcut : ∀ {front rest : List Char}, (∀ c ∈ front, p c = true) →
      (∀ c ∈ rest.head?, p c = false) → (front ++ rest).takeWhile p = front := by
    intro front rest hfront hrest
    rw [List.takeWhile_append_of_pos hfront]
    cases rest with
    | nil => simp
    | cons c rest => simp [hrest c rfl]
  have hfronts : front = front' := by rw [← hcut hfront hrest, ← hcut hfront' hrest', h]
  subst hfronts
  exact ⟨rfl, List.append_cancel_left h⟩

theorem IsWord.exists_cons {text : String} (h : IsWord text) :
    ∃ c cs, text.toList = c :: cs ∧ isMark c = false := by
  cases htext : text.toList with
  | nil => exact absurd htext h.ne_nil
  | cons c cs => exact ⟨c, cs, rfl, h.plain c (htext ▸ List.mem_cons_self)⟩

theorem Neat.head_ne {f : Form} (h : f.Neat) (rest rest' : List Char) :
    f.text ++ rest ≠ ')' :: rest' := by
  cases f with
  | word text =>
    obtain ⟨c, cs, htext, hc⟩ := IsWord.exists_cons h
    rw [Form.text, htext]
    rintro ⟨⟩
    contradiction
  | quoted text | list items =>
    rw [Form.text]
    nofun

mutual

theorem text_inj (f g : Form) {rest rest' : List Char} (hf : f.Neat) (hg : g.Neat)
    (hrest : Stops rest) (hrest' : Stops rest') (h : f.text ++ rest = g.text ++ rest') :
    f = g ∧ rest = rest' := by
  cases f with
  | word text =>
    cases g with
    | word text' =>
      have hplain : ∀ {text : String}, IsWord text → ∀ c ∈ text.toList, (!isMark c) = true :=
        fun hword c hc => by rw [hword.plain c hc]; rfl
      have hstop : ∀ {rest : List Char}, Stops rest → ∀ c ∈ rest.head?, (!isMark c) = false :=
        fun hstops c hc => by rw [hstops c hc]; rfl
      obtain ⟨htext, hrest⟩ :=
        append_inj_of_test (hplain hf) (hplain hg) (hstop hrest) (hstop hrest') h
      rw [String.toList_inj.1 htext]
      exact ⟨rfl, hrest⟩
    | quoted text' | list items =>
      obtain ⟨c, cs, htext, hc⟩ := IsWord.exists_cons hf
      rw [Form.text, htext, Form.text] at h
      obtain rfl := List.head_eq_of_cons_eq h
      contradiction
  | quoted text =>
    cases g with
    | word text' =>
      obtain ⟨c, cs, htext, hc⟩ := IsWord.exists_cons hg
      rw [Form.text, Form.text, htext] at h
      obtain rfl := List.head_eq_of_cons_eq h
      contradiction
    | quoted text' =>
      have hbody : ∀ {text : String}, '"' ∉ text.toList → ∀ c ∈ text.toList, (c != '"') = true :=
        fun hquote c hc => bne_iff_ne.2 fun heq => hquote (heq ▸ hc)
      simp only [Form.text, List.cons_append, List.append_assoc, List.cons.injEq, true_and,
        List.nil_append] at h
      obtain ⟨htext, hrest⟩ := append_inj_of_test (p := (· != '"')) (hbody hf) (hbody hg)
        (by rintro c ⟨⟩; rfl) (by rintro c ⟨⟩; rfl) h
      rw [String.toList_inj.1 htext]
      exact ⟨rfl, List.tail_eq_of_cons_eq hrest⟩
    | list items =>
      rw [Form.text, Form.text] at h
      cases h
  | list items =>
    cases g with
    | word text' =>
      obtain ⟨c, cs, htext, hc⟩ := IsWord.exists_cons hg
      rw [Form.text, Form.text, htext] at h
      obtain rfl := List.head_eq_of_cons_eq h
      contradiction
    | quoted text' =>
      rw [Form.text, Form.text] at h
      cases h
    | list items' =>
      rw [Form.text, Form.text] at h
      obtain ⟨rfl, hrest⟩ := itemsText_inj items items' hf hg hrest hrest' (List.tail_eq_of_cons_eq h)
      exact ⟨rfl, hrest⟩

theorem itemsText_inj (fs gs : List Form) {rest rest' : List Char} (hfs : NeatAll fs)
    (hgs : NeatAll gs) (hrest : Stops rest) (hrest' : Stops rest')
    (h : itemsText fs ++ rest = itemsText gs ++ rest') : fs = gs ∧ rest = rest' := by
  cases fs with
  | nil =>
    cases gs with
    | nil => exact ⟨rfl, List.tail_eq_of_cons_eq h⟩
    | cons g gs =>
      rw [itemsText, itemsText, List.append_assoc] at h
      exact absurd h.symm (hgs.1.head_ne _ _)
  | cons f fs =>
    cases gs with
    | nil =>
      rw [itemsText, itemsText, List.append_assoc] at h
      exact absurd h (hfs.1.head_ne _ _)
    | cons g gs =>
      rw [itemsText, itemsText, List.append_assoc, List.append_assoc] at h
      obtain ⟨rfl, hmore⟩ := text_inj f g hfs.1 hgs.1 (stops_restText _ _) (stops_restText _ _) h
      obtain ⟨rfl, hrest⟩ := restText_inj fs gs hfs.2 hgs.2 hrest hrest' hmore
      exact ⟨rfl, hrest⟩

theorem restText_inj (fs gs : List Form) {rest rest' : List Char} (hfs : NeatAll fs)
    (hgs : NeatAll gs) (hrest : Stops rest) (hrest' : Stops rest')
    (h : restText fs ++ rest = restText gs ++ rest') : fs = gs ∧ rest = rest' := by
  cases fs with
  | nil =>
    cases gs with
    | nil => exact ⟨rfl, List.tail_eq_of_cons_eq h⟩
    | cons g gs =>
      rw [restText, restText] at h
      cases h
  | cons f fs =>
    cases gs with
    | nil =>
      rw [restText, restText] at h
      cases h
    | cons g gs =>
      rw [restText, restText, List.cons_append, List.cons_append, List.append_assoc,
        List.append_assoc] at h
      obtain ⟨rfl, hmore⟩ := text_inj f g hfs.1 hgs.1 (stops_restText _ _) (stops_restText _ _)
        (List.tail_eq_of_cons_eq h)
      obtain ⟨rfl, hrest⟩ := restText_inj fs gs hfs.2 hgs.2 hrest hrest' hmore
      exact ⟨rfl, hrest⟩

end

theorem eq_of_text_eq {f g : Form} (hf : f.Neat) (hg : g.Neat) (h : f.text = g.text) : f = g := by
  have hnil : Stops [] := nofun
  exact (text_inj f g hf hg hnil hnil (by rw [h])).1

end Form

end Lox
