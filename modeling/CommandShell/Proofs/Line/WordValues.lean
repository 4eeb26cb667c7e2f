import CommandShell.Proofs.Line.PlainLines

/-!
# What words stand for

The grammar can group the tokens of a word in many ways, but without backquotes the text that the
word stands for can be told from the tokens alone: it is enough to follow the quote that is open.
The words of a line are the phrases below the names, flags and arguments of its concrete tree.
-/

namespace CommandShell

open List

namespace Tree

/-- The rules whose phrases a command is made of: its name, its flags and its arguments. -/
def holdsWord (rule : Rule) : Bool := rule = .name || rule = .flag || rule = .arg

/-- The phrases directly below a node, if the node is a name, a flag or an argument. -/
def wordsAt (node : Rule × Tree) : List Tree :=
  if holdsWord node.1 then node.2.childrenWith (.rule .phrase) else []

/-- The names, flags and arguments in a tree, from left to right. -/
def words (t : Tree) : List Tree := t.nodes.flatMap wordsAt

def wordsOf (ts : List Tree) : List Tree := (nodesOf ts).flatMap wordsAt

@[simp] theorem words_leaf (token : Token) : (leaf token).words = [] := rfl

@[simp] theorem words_endOfLine : endOfLine.words = [] := rfl

theorem words_node_of_holdsWord (rule : Rule) (h : holdsWord rule = true) (children : List Tree) :
    (node rule children).words =
      children.filter (·.hasLabel (.rule .phrase)) ++ wordsOf children := by
  simp [words, nodes, wordsAt, h, childrenWith, wordsOf]

@[simp] theorem words_node {rule : Rule} (children : List Tree) (h : holdsWord rule = false) :
    (node rule children).words = wordsOf children := by
  simp [words, nodes, wordsAt, h, wordsOf]

@[simp] theorem wordsOf_nil : wordsOf [] = [] := rfl

@[simp] theorem wordsOf_cons (t : Tree) (ts : List Tree) :
    wordsOf (t :: ts) = t.words ++ wordsOf ts := by
  simp [wordsOf, nodesOf, words]

@[simp] theorem wordsOf_append (xs ys : List Tree) :
    wordsOf (xs ++ ys) = wordsOf xs ++ wordsOf ys := by
  induction xs with
  | nil => rfl
  | cons t xs ih => rw [cons_append, wordsOf_cons, wordsOf_cons, ih, append_assoc]

theorem tokens_subset_of_mem {t : Tree} {ts : List Tree} (h : t ∈ ts) :
    t.tokens ⊆ tokensOf ts := by
  induction ts with
  | nil => cases h
  | cons t' ts ih =>
    rcases mem_cons.mp h with rfl | h
    · exact subset_append_left _ _
    · exact List.Subset.trans (ih h) (subset_append_right _ _)

mutual

theorem tokens_subset_of_mem_nodes {t : Tree} {node : Rule × Tree} (h : node ∈ t.nodes) :
    node.2.tokens ⊆ t.tokens := by
  match t with
  | .leaf _ | .endOfLine => cases h
  | .node rule children =>
    rcases mem_cons.mp h with rfl | h
    · exact List.Subset.refl _
    · exact tokens_subset_of_mem_nodesOf h

theorem tokens_subset_of_mem_nodesOf {ts : List Tree} {node : Rule × Tree} (h : node ∈ nodesOf ts) :
    node.2.tokens ⊆ tokensOf ts := by
  match ts with
  | [] => cases h
  | t :: ts =>
    rcases mem_append.mp h with h | h
    · exact List.Subset.trans (tokens_subset_of_mem_nodes h) (subset_append_left _ _)
    · exact List.Subset.trans (tokens_subset_of_mem_nodesOf h) (subset_append_right _ _)

end

theorem tokens_subset_of_mem_words {t word : Tree} (h : word ∈ t.words) :
    word.tokens ⊆ t.tokens := by
  obtain ⟨⟨rule, node⟩, hnode, hword⟩ := mem_flatMap.mp h
  unfold wordsAt at hword
  split at hword
  · refine List.Subset.trans ?_ (tokens_subset_of_mem_nodes hnode)
    cases node with
    | leaf _ | endOfLine => cases hword
    | node _ children => exact tokens_subset_of_mem (mem_filter.mp hword).1
  · cases hword

end Tree

namespace Line

open List

/-! ## The value of a word -/

/-- What a token adds to a word, given the quote that is open before it. Outside quotes a run of
characters loses its backslashes before quotes and backslashes, and a quote adds nothing. Between
quotes every token but the closing quote stands for itself. -/
def spellToken : Option Quote → Token → Text
  | none, .chars t => unescape t
  | none, .dash => ['-']
  | none, _ => []
  | some quote, token => if token = quote.token then [] else token.text

/-- What tokens add to a word, given the quote that is open before them. -/
def spelling : Option Quote → List Token → Text
  | _, [] => []
  | open?, token :: ts => spellToken open? token ++ spelling (Quote.after open? token) ts

theorem spelling_append (open? : Option Quote) (ts us : List Token) :
    spelling open? (ts ++ us) = spelling open? ts ++ spelling (openAfter open? ts) us := by
  induction ts generalizing open? with
  | nil => rfl
  | cons token ts ih =>
    rw [cons_append, spelling, spelling, ih, openAfter_cons, append_assoc]

theorem spelling_inside {quote : Quote} {token : Token} (h : token ≠ quote.token)
    (ts : List Token) :
    spelling (some quote) (token :: ts) = token.text ++ spelling (some quote) ts := by
  simp [spelling, spellToken, Quote.after, h]

theorem spelling_quoted (quote : Quote) {ts : List Token}
    (h : openAfter (some quote) ts = some quote) :
    spelling none (quote.token :: (ts ++ [quote.token])) = spelling (some quote) ts := by
  have hopen : Quote.after none quote.token = some quote := by cases quote <;> rfl
  have hquote : spellToken none quote.token = [] := by cases quote <;> rfl
  have hclose : spelling (some quote) [quote.token] = [] := by simp [spelling, spellToken]
  rw [spelling, hquote, hopen, nil_append, spelling_append, h, hclose, append_nil]

theorem value_append {x y : Except Complaint Text} {s t : Text} (hx : x = .ok s)
    (hy : y = .ok t) : (do return (← x) ++ (← y)) = (.ok (s ++ t) : Except Complaint Text) := by
  rw [hx, hy]
  rfl

theorem Word.openAfter_tokens (w : Word) (h : .backquote ∉ w.tree.tokens) :
    openAfter none w.tree.tokens = none :=
  (Word.balanced (.inl rfl) w h).state

theorem Quoted.openAfter_tokens (q : Quoted) (h : .backquote ∉ q.tree.tokens) :
    openAfter none q.tree.tokens = none :=
  (Quoted.balanced (.inl rfl) q h).state

theorem Body.openAfter_tokens (quote : Quote) (body : Body)
    (h : .backquote ∉ Tree.tokensOf (body.trees quote)) :
    openAfter (some quote) (Tree.tokensOf (body.trees quote)) = some quote :=
  (balanced_inside (body.quote_not_mem quote h) : Balanced .bar _ _).state

theorem Body.value_eq (quote : Quote) (body : Body)
    (h : .backquote ∉ Tree.tokensOf (body.trees quote)) :
    body.value quote = .ok (spelling (some quote) (Tree.tokensOf (body.trees quote))) := by
  cases body with
  | done => rfl
  | mark rest =>
    simp only [Body.trees, Tree.tokens, Tree.tokensOf, singleton_append, mem_cons,
      not_or] at h ⊢
    have hmark : quote.other.token ≠ quote.token := by cases quote <;> decide
    rw [Body.value, Body.value_eq quote rest h.2, spelling_inside hmark]
    rfl
  | literal token rest =>
    simp only [Body.trees, Tree.tokens, Tree.tokensOf, singleton_append, mem_cons,
      append_nil, not_or] at h ⊢
    have htoken : token.token ≠ quote.token := by
      cases token <;> cases quote <;> intro heq <;> cases heq
    rw [Body.value, Body.value_eq quote rest h.2, spelling_inside htoken]
    rfl
  | space t rest =>
    simp only [Body.trees, spaceLeaf, Tree.tokens, Tree.tokensOf, singleton_append,
      mem_cons, not_or] at h ⊢
    have hspace : Token.space t ≠ quote.token := by cases quote <;> intro heq <;> cases heq
    rw [Body.value, Body.value_eq quote rest h.2, spelling_inside hspace]
    rfl
  | substitution inner rest => simp [inner.mem_backquote] at h

theorem Quoted.value_eq (q : Quoted) (h : .backquote ∉ q.tree.tokens) :
    q.value = .ok (spelling none q.tree.tokens) := by
  cases q with
  | mk quote body =>
    have hbody := Quoted.backquote_not_mem_body h
    rw [Quoted.tokens_mk, spelling_quoted quote (body.openAfter_tokens quote hbody), Quoted.value,
      body.value_eq quote hbody]

theorem Strings.value_eq (s : Strings) (h : .backquote ∉ Tree.tokensOf s.trees) :
    s.value = .ok (spelling none (Tree.tokensOf s.trees)) := by
  match s with
  | .one first =>
    simp only [Strings.trees, Tree.tokensOf, append_nil] at h ⊢
    exact first.value_eq h
  | .more first rest =>
    simp only [Strings.trees, Tree.tokensOf, mem_append, not_or] at h ⊢
    rw [spelling_append, first.openAfter_tokens h.1]
    exact value_append (first.value_eq h.1) (rest.value_eq h.2)

/-- However the tokens of a word are grouped, the word stands for what they spell. -/
theorem Word.value_eq (w : Word) (h : .backquote ∉ w.tree.tokens) :
    w.value = .ok (spelling none w.tree.tokens) := by
  replace h := w.plain h
  induction h with
  | chars t => simp [Word.value, spelling, spellToken]; rfl
  | dash => rfl
  | strings run hrun => exact run.value_eq hrun
  | @stringBefore first hfirst rest _ ih =>
    have htokens : (Word.stringBefore first rest).tree.tokens =
        first.tree.tokens ++ rest.tree.tokens := by simp
    rw [htokens, spelling_append, first.openAfter_tokens hfirst]
    exact value_append (first.value_eq hfirst) ih
  | charsBefore _ _ ih | dashBefore _ ih =>
    simp [Word.value, ih, spelling, spellToken, Quote.after, Quote.ofToken?, bind, Except.bind,
      pure, Except.pure]
  | @stringAfter front hfront _ last hlast ih =>
    have htokens : (Word.stringAfter front last).tree.tokens =
        front.tree.tokens ++ last.tree.tokens := by simp
    rw [htokens, spelling_append, front.openAfter_tokens hfront]
    exact value_append ih (last.value_eq hlast)

/-! ## The words of a line -/

def Modifier.word : Modifier → Word
  | .flag name => name
  | .arg value => value

/-- The words of a command: its name, its flags and its arguments. -/
def Command.words : Command → List Word
  | .mk _ name ending => name :: ending.modifiers.map Modifier.word

def CommandLine.words (l : CommandLine) : List Word := l.parts.flatten.flatMap Command.words

def Script.words (script : Script) : List Word :=
  match script.line with
  | none => []
  | some l => l.words

section Words

open CommandShell.Tree

@[simp] theorem wordsOf_gapLeaves (gap : Option Text) : wordsOf (gapLeaves gap) = [] := by
  cases gap <;> rfl

@[simp] theorem wordsOf_jointLeaves (separator : Token) (before after : Option Text) :
    wordsOf (jointLeaves separator before after) = [] := by
  simp [jointLeaves]

@[simp] theorem wordsOf_spaceLeaves (spaces : List Text) : wordsOf (spaces.map spaceLeaf) = [] := by
  induction spaces with
  | nil => rfl
  | cons text spaces ih => simp [spaceLeaf, ih]

theorem Body.wordsOf_trees (quote : Quote) (body : Body)
    (h : .backquote ∉ tokensOf (body.trees quote)) : wordsOf (body.trees quote) = [] := by
  match body with
  | .done => rfl
  | .mark rest | .space t rest | .literal token rest =>
    simp only [Body.trees, tokensOf, mem_append, not_or] at h
    simp [spaceLeaf, holdsWord, rest.wordsOf_trees quote h.2]
  | .substitution inner rest => simp [tokensOf, inner.mem_backquote] at h

theorem Quoted.words_tree (q : Quoted) (h : .backquote ∉ q.tree.tokens) : q.tree.words = [] := by
  cases q with
  | mk quote body =>
    have hquote : holdsWord quote.rule = false := by cases quote <;> rfl
    rw [Quoted.tree, words_node _ rfl, wordsOf_cons, words_node _ hquote]
    simp [body.wordsOf_trees quote (Quoted.backquote_not_mem_body h)]

theorem Strings.wordsOf_trees (s : Strings) (h : .backquote ∉ tokensOf s.trees) :
    wordsOf s.trees = [] := by
  match s with
  | .one first =>
    simp only [Strings.trees, tokensOf, append_nil] at h
    simp [first.words_tree h]
  | .more first rest =>
    simp only [Strings.trees, tokensOf, mem_append, not_or] at h
    simp [first.words_tree h.1, rest.wordsOf_trees h.2]

theorem Word.words_tree (w : Word) (h : .backquote ∉ w.tree.tokens) : w.tree.words = [] := by
  replace h := w.plain h
  induction h with
  | chars text | dash => rfl
  | strings run hrun => simp [holdsWord, run.wordsOf_trees hrun]
  | stringBefore first hfirst _ ih => simp [holdsWord, first.words_tree hfirst, ih]
  | charsBefore _ _ ih | dashBefore _ ih => simp [holdsWord, ih]
  | stringAfter _ _ last hlast ih => simp [holdsWord, ih, last.words_tree hlast]

@[simp] theorem Word.hasLabel_tree (w : Word) : w.tree.hasLabel (.rule .phrase) = true := by
  cases w <;> rfl

theorem Redirect.words_tree (r : Redirect) (h : .backquote ∉ r.tree.tokens) :
    r.tree.words = [] := by
  cases r with
  | mk direction gap target =>
    simp only [Redirect.tree, tokens, tokensOf, tokensOf_append, append_nil,
      mem_append, mem_cons, cons_append, nil_append, not_or] at h
    simp [holdsWord, target.words_tree h.2.2]

theorem Opening.wordsOf_trees (o : Opening) (h : .backquote ∉ tokensOf o.trees) :
    wordsOf o.trees = [] := by
  match o with
  | .done => rfl
  | .space t rest =>
    simp only [Opening.trees, tokensOf, mem_append, not_or] at h
    simp [spaceLeaf, rest.wordsOf_trees h.2]
  | .redirect first rest =>
    simp only [Opening.trees, tokensOf, mem_append, not_or] at h
    simp [first.words_tree h.1, rest.wordsOf_trees h.2]

theorem Modifier.words_tree (m : Modifier) (h : .backquote ∉ m.tree.tokens) :
    m.tree.words = [m.word.tree] := by
  cases m with
  | flag name =>
    simp only [Modifier.tree, tokens, tokensOf, append_nil, mem_append, not_or] at h
    have hflag := words_node_of_holdsWord .flag rfl [.leaf .dash, name.tree]
    have hdash : (Tree.leaf .dash).hasLabel (.rule .phrase) = false := rfl
    simp [Modifier.word, hflag, holdsWord, hdash, name.words_tree h.2]
  | arg value =>
    simp only [Modifier.tree, tokens, tokensOf, append_nil] at h
    have harg := words_node_of_holdsWord .arg rfl [value.tree]
    simp [Modifier.word, harg, holdsWord, value.words_tree h]

theorem Ending.wordsOf_trees (e : Ending) (h : .backquote ∉ tokensOf e.trees) :
    wordsOf e.trees = e.modifiers.map fun m => m.word.tree := by
  match e with
  | .done => rfl
  | .redirect spaces first rest =>
    simp only [Ending.trees, tokensOf, tokensOf_append, mem_append, not_or] at h
    simp [Ending.modifiers, first.words_tree h.2.1, rest.wordsOf_trees h.2.2]
  | .modifier t first rest =>
    simp only [Ending.trees, tokensOf, mem_append, not_or] at h
    simp [Ending.modifiers, spaceLeaf, first.words_tree h.2.1, rest.wordsOf_trees h.2.2]

theorem Command.words_tree (x : Command) (h : .backquote ∉ x.tree.tokens) :
    x.tree.words = x.words.map Word.tree := by
  cases x with
  | mk opening name ending =>
    simp only [Command.tree, tokens, tokensOf, tokensOf_append, append_nil,
      mem_append, not_or] at h
    have hname := words_node_of_holdsWord .name rfl [name.tree]
    simp [Command.words, holdsWord, opening.wordsOf_trees h.1, hname, name.words_tree h.2.1, ending.wordsOf_trees h.2.2]

theorem CommandLine.words_tree (l : CommandLine) (h : .backquote ∉ l.tree.tokens) :
    l.tree.words = l.words.map Word.tree := by
  unfold CommandLine.words
  induction l using CommandLine.induction with
  | command only =>
    simp only [CommandLine.tree, tokens, tokensOf, append_nil] at h
    simp [CommandLine.parts, holdsWord, only.words_tree h]
  | joined l left right hjoined ihleft ihright =>
    obtain ⟨joint, htokens⟩ := hjoined.tokens
    simp only [htokens, mem_append, not_or] at h
    obtain ⟨rule, separator, before, after, a, b, hleft, hright, hrule, htree⟩ := hjoined.tree
    have hwords : left.tree.words ++ right.tree.words = l.tree.words := by
      rcases hrule with ⟨rfl, rfl⟩ | ⟨rfl, rfl⟩ <;>
        simp [hleft, hright, htree, holdsWord]
    rw [← hwords, ihleft h.1, ihright h.2.2, hjoined.commands, flatMap_append, map_append]

theorem Script.words_tree (script : Script) (h : .backquote ∉ script.tree.tokens) :
    script.tree.words = script.words.map Word.tree := by
  obtain ⟨line, trailing⟩ := script
  cases line with
  | none => simp [Script.tree, Script.words, holdsWord]
  | some l =>
    simp only [Script.tree, tokens, tokensOf, tokensOf_append, cons_append,
      nil_append, mem_append, not_or] at h
    simp [Script.tree, Script.words, holdsWord, l.words_tree h.1]

end Words

/-- The names, flags and arguments in the concrete tree of a line without backquotes are the words
of its commands. Each of them stands for what its tokens spell, and so does every other way to
group the same tokens. -/
theorem Script.value_of_mem_words (line : Text) (script : Script) (hplain : '\x60' ∉ line)
    (hread : Script.ofLine? line = some script) :
    script.tree.words = script.words.map Word.tree ∧
      ∀ word ∈ script.words, ∀ other : Word, other.tree.tokens = word.tree.tokens →
        other.value = .ok (spelling none word.tree.tokens) := by
  have hbackquote : .backquote ∉ script.tree.tokens :=
    Script.tokens_of_ofLine? hread ▸ backquote_not_mem_ofLine hplain
  have hwords := script.words_tree hbackquote
  refine ⟨hwords, fun word hmem other htokens => ?_⟩
  have htree : word.tree ∈ script.tree.words := hwords ▸ mem_map_of_mem hmem
  rw [← htokens]
  apply other.value_eq
  rw [htokens]
  exact fun h => hbackquote (Tree.tokens_subset_of_mem_words htree h)

/-- A word with escapes, strings of both kinds and a dash. -/
def mixedWord : Word :=
  .charsBefore ['a', '\\', '\'', 'b'] (.stringBefore
    (.mk .double (.literal (.chars ['c']) (.space [' '] (.literal (.chars ['d'])
      (.literal .semicolon (.mark .done))))))
    (.stringAfter .dash (.mk .single (.literal (.chars ['e', '\\', '"', 'f']) .done))))

/-- Backslashes are dropped outside quotes only, and a semicolon between quotes is kept. -/
theorem Script.value_of_mem_words_mixed : ∃ script,
    Script.ofLine? "echo a\\'b\"c d;'\"-'e\\\"f'".toList = some script ∧
      mixedWord ∈ script.words ∧ mixedWord.value = .ok "a'bc d;'-e\\\"f".toList := by
  have hread : Script.ofLine? "echo a\\'b\"c d;'\"-'e\\\"f'".toList =
      some ⟨some (.command (.mk .done (.chars "echo".toList)
        (.modifier [' '] (.arg mixedWord) .done))), []⟩ := by decide +kernel
  refine ⟨_, hread, ?_⟩
  have hmem : mixedWord ∈ Script.words ⟨some (.command (.mk .done (.chars "echo".toList)
      (.modifier [' '] (.arg mixedWord) .done))), []⟩ := mem_cons_of_mem _ mem_cons_self
  have hspelling : spelling none mixedWord.tree.tokens = "a'bc d;'-e\\\"f".toList := by cbv
  refine ⟨hmem, ?_⟩
  rw [← hspelling]
  exact (Script.value_of_mem_words _ _ (by decide) hread).2 mixedWord hmem mixedWord rfl

end Line

end CommandShell
