import PhpStyle.Php.Tokenize
import PhpStyle.Proofs.Php.Outlining
import PhpStyle.Proofs.Php.Progress
import PhpStyle.Proofs.Run.Passes

/-!
# Every text can be tokenized

The lexer cuts every text to its end, and the outline of the settled lexemes is well formed. So
there is a store of every text, with that text as its source, and no run over PHP code ends without
a report.
-/

namespace PhpStyle.Php

/-- A store is built of every text. -/
theorem exists_tokenize (source : String) :
    ∃ store, tokenize source = .ok store ∧
      Store.build? (settleWords (lex source)) (outline (settleWords (lex source))) = .ok store := by
  obtain ⟨store, hbuild⟩ := (Store.exists_build?_iff (settleWords (lex source)) _).mpr
    (wellFormed_outline (isChain_settleWords source))
  exact ⟨store, by simp [tokenize, hbuild], hbuild⟩

/-- The store of a text has that text as its source and the texts of the lexemes as those of its
tokens. -/
theorem source_of_build {source : String} {outline : Outline} {store : Store}
    (h : Store.build? (settleWords (lex source)) outline = .ok store) :
    store.source = source ∧ store.tokens.toList.map (·.text) = (lex source).map (·.text) := by
  obtain ⟨htokens, hsource⟩ := Store.build?_spec h
  constructor
  · rw [hsource, map_text_settleWords, join_text_lex]
  · rw [htokens, Token.layout, Token.map_text_layoutFrom, map_text_settleWords]

/-- A store is built of the tokens of every PHP text. -/
theorem buildsEvery_tokenize : Tokenizer.BuildsEvery tokenize := by
  intro source
  obtain ⟨store, hstore, hbuild⟩ := exists_tokenize source
  exact ⟨store, hstore, (source_of_build hbuild).1, _, _, hbuild⟩

/-- Every reader of the lexer moves its cursor on wherever it is called and cuts off all that it has
passed, and so does every turn of the loop around them, which ends behind the last byte of the
source. What it has cut off is what the modes of the lexer cut the source into, with no more lexemes
than characters: none is empty, and their texts make up the source, which is also the source of the
store built of them. -/
theorem lex_spells_source (source : String) :
    Cursor.ReadersTake source ∧
      (∀ c : Cursor source, c.position < source.utf8ByteSize →
        c.Takes c.lexInlineHtml.lexPhp) ∧
      (Cursor.start source).lexAll.position = source.utf8ByteSize ∧
      Cut .html source.toList (lex source) ∧ (lex source).length ≤ source.length ∧
      (∀ l ∈ lex source, l.text ≠ "") ∧ String.join ((lex source).map (·.text)) = source ∧
      ∃ store, tokenize source = .ok store ∧ store.source = source ∧
        store.tokens.toList.map (·.text) = (lex source).map (·.text) := by
  have hcut := lex_cut source
  have hlength : (lex source).length ≤ source.length := by
    rw [← String.length_toList]
    exact hcut.length_le
  obtain ⟨store, hstore, hbuild⟩ := exists_tokenize source
  exact ⟨Cursor.readersTake source, fun c h => Cursor.takes_turn h, Cursor.position_lexAll _, hcut,
    hlength, hcut.text_ne_empty, join_text_lex source, store, hstore, source_of_build hbuild⟩

/-- Whatever text is tokenized, however unbalanced, its outline is accepted. So every check of it
and every run over it gives a report, with any rules and any budget. -/
theorem runs_succeed (source : String) :
    (outline (settleWords (lex source))).WellFormed (settleWords (lex source)).length ∧
      (∃ store, tokenize source = .ok store) ∧
      ∀ (rules : List Rule) (budget : Nat),
        (∃ report, (Engine.ofRules tokenize rules).check source = .ok report) ∧
          ∃ report, (Engine.ofRules tokenize rules).fix budget source = .ok report := by
  obtain ⟨store, hstore, _⟩ := exists_tokenize source
  refine ⟨wellFormed_outline (isChain_settleWords source), ⟨store, hstore⟩, fun rules budget => ?_⟩
  have htotal : (Engine.ofRules tokenize rules).tokenizer.BuildsEvery := buildsEvery_tokenize
  exact ⟨Engine.exists_check htotal source, Engine.exists_fixFrom htotal 1 (max budget 1) _⟩

end PhpStyle.Php
