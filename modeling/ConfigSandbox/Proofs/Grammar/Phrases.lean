import ConfigSandbox.Proofs.Grammar.Items

/-!
# Expressions that are read as such

For each form of expression a text that is read as that form, wherever something stops it. The forms are
rows of one operand; a call is a name that brackets follow.
-/
namespace ConfigSandbox.Peg

variable {α : Type} {t : α → List Char} {Q : α → Node → Prop} {P : List Node → Prop}
variable {cs ds w tail : List Char} {d m : Char} {xs : List α} {x : α}

theorem Phrase.of_operand (hopens : ∀ tail, Stops tail → OpensOperand (cs ++ tail))
    (hunnamed : ∀ tail, Stops tail → Refuses (.rule .keywordArgument) (cs ++ tail))
    (h : ∀ tail, Stops tail → Takes primary cs tail P) : Phrase cs (RowNode P) := by
  refine ⟨⟨fun tail htail => (hopens tail htail).opens, fun tail htail => ?_⟩, hunnamed⟩
  have htest := takes_test (hopens tail htail) (h tail htail) htail.operandRest.takes htail.conditionalRest
  rw [List.append_nil] at htest
  refine htest.mono ?_
  rintro _ ⟨_, rfl, first, last, first', last', _, rfl, xs, _, rfl, hP, rfl⟩
  exact ⟨_, rfl, first, last, first', last', _, rfl, by rwa [List.append_nil]⟩

/-- An expression that does not begin with a word. -/
theorem Phrase.of_head {c : Char} (hc : some c ∈ operandHeads)
    (h : ∀ tail, Stops tail → Takes primary (c :: cs) tail P) : Phrase (c :: cs) (RowNode P) :=
  .of_operand (fun _ _ => .char hc) (fun _ _ => refuses_at operandHeads hc (by decide)) h

theorem phrase_integer (hd : d.isDigit) (hds : ∀ c ∈ ds, c.isDigit) :
    Phrase (d :: ds) (RowNode (Single .integer (d :: ds) Silent)) := by
  refine .of_head ?_ fun tail htail => takes_integerOperand hd hds htail
  exact List.mem_append_right [some '(', some '[', some '\x7b', some '"', some '\''] (mem_digitHeads hd)

theorem phrase_string (hm : m = '"' ∨ m = '\'') (h : Quotable m cs) :
    Phrase (m :: (cs ++ [m])) (RowNode (Single .strings (m :: (cs ++ [m])) (LiteralNode m cs))) := by
  refine .of_head ?_ fun tail htail => takes_stringOperand hm h htail
  rcases hm with rfl | rfl <;> decide

theorem phrase_list (hxs : ∀ y ∈ xs, Phrase (t y) (Q y)) :
    Phrase ('[' :: (row t xs ++ [']']))
      (RowNode (Single .list ('[' :: (row t xs ++ [']'])) (List.Forall₂ Q xs))) :=
  .of_head (by decide) fun _ _ => takes_listOperand (takes_list hxs)

theorem phrase_set (hxs : ∀ y ∈ x :: xs, Phrase (t y) (Q y)) :
    Phrase ('\x7b' :: (row t (x :: xs) ++ ['\x7d']))
      (RowNode (Single .brace ('\x7b' :: (row t (x :: xs) ++ ['\x7d'])) (List.Forall₂ Q (x :: xs)))) :=
  .of_head (by decide) fun _ _ => takes_braceOperand (takes_set hxs)

theorem phrase_dict {k v : α → List Char} {K V : α → Node → Prop}
    (hxs : ∀ y ∈ xs, Phrase (k y) (K y) ∧ Phrase (v y) (V y)) :
    Phrase ('\x7b' :: (row (fun y => pairText (k y) (v y)) xs ++ ['\x7d']))
      (RowNode (Single .brace ('\x7b' :: (row (fun y => pairText (k y) (v y)) xs ++ ['\x7d']))
        (List.Forall₂ (fun y => PairNode (K y) (V y)) xs))) :=
  .of_head (by decide) fun _ _ => takes_braceOperand (takes_dict hxs)

/-! ### Words -/

theorem phrase_word {word : String} {r : Rule} (hmem : (word, r) ∈ wordLiterals) :
    Phrase word.toList (RowNode (Single r word.toList Silent)) := by
  have hfacts : ∀ p ∈ wordLiterals, isWord p.1.toList ∧ p.1 ∈ ["None", "True", "False"] ∧
      ∀ word ∈ ["lambda", "not"], word.toList ≠ p.1.toList := by decide
  obtain ⟨hword, hliteral, hother⟩ := hfacts _ hmem
  refine .of_operand (fun tail htail => .word hword htail.breaksWord hother) (fun tail htail => ?_)
    fun tail htail => takes_wordOperand hmem htail.breaksWord
  have hname : Refuses Rule.keywordArgument.body (word.toList ++ tail) :=
    (refuses_identifier hliteral htail.breaksWord).seq
  exact hname.rule

/-- A name is no keyword where no equals sign follows. -/
theorem refuses_keyword (hw : isName w) (hhead : tail.head? ∈ some '(' :: stops) :
    Refuses (.rule .keywordArgument) (w ++ tail) := by
  have hbreaks : breaksWord tail := by
    have hall : ∀ head ∈ some '(' :: stops, head.all fun c => !Identifier.isContinue c && !Nesting.isMark c := by
      decide
    exact hall _ hhead
  have hsign : Refuses (tokens [assignSign, test]) tail := refuses_at _ hhead (by decide)
  have hblanks : Skips blanks tail := skips_at _ hhead (by decide)
  have hkeyword : Refuses Rule.keywordArgument.body (w ++ tail) :=
    (hsign.past hblanks).after (takes_identifier hw hbreaks)
  exact hkeyword.rule

theorem phrase_name (hw : isName w) : Phrase w (RowNode (Single .identifier w Silent)) :=
  .of_operand (fun _ htail => opens_name hw htail.breaksWord)
    (fun _ htail => refuses_keyword hw (List.mem_cons_of_mem _ htail))
    fun _ htail => takes_nameOperand hw htail.breaksWord

/-- The nodes of a call: that of the name, and one with those of the arguments. -/
def CallNodes (w : List Char) (P : List Node → Prop) (nodes : List Node) : Prop :=
  ∃ name first last children, nodes = [name, .mk .call first last children] ∧ name.rule = .identifier ∧
    name.text = w ∧ P children

theorem phrase_call (hw : isName w) (hxs : ∀ y ∈ xs, Item callArgument (t y) (Q y)) :
    Phrase (w ++ '(' :: (row t xs ++ [')'])) (RowNode (CallNodes w (List.Forall₂ Q xs))) := by
  have hparen {tail : List Char} : breaksWord ('(' :: (row t xs ++ [')']) ++ tail) := rfl
  refine ⟨⟨fun tail _ => ?_, fun tail htail => ?_⟩, fun tail _ => ?_⟩
  · rw [List.append_assoc]
    exact (opens_name hw hparen).opens
  · have hgap : Skips blanks ('(' :: (row t xs ++ [')']) ++ tail) :=
      skips_at [some '('] List.mem_cons_self (by decide)
    have hmore : Skips (.star (.seq blanks trailer)) tail := skips_at stops htail (by decide)
    have hrest : Skips (.seq blanks (many (tokens [binaryOperator, many unaryOperator, primary, many trailer])))
        tail := skips_at stops htail (by decide)
    have hcall : Takes operandRest ('(' :: (row t xs ++ [')'])) tail _ :=
      (((takes_call hxs).alt.before hmore).opt.before hrest).past hgap
    refine (takes_test (opens_name hw hparen) (takes_nameOperand hw hparen) hcall htail.conditionalRest).mono ?_
    rintro _ ⟨_, rfl, first, last, first', last', _, rfl, _, _, rfl, ⟨f, l, _, rfl, hreads, rfl⟩,
      f', l', children, rfl, -, hchildren⟩
    exact ⟨_, rfl, first, last, first', last', _, rfl, _, f', l', children, rfl, rfl, hreads.textTo_eq, hchildren⟩
  · rw [List.append_assoc]
    exact refuses_keyword hw List.mem_cons_self

end ConfigSandbox.Peg
