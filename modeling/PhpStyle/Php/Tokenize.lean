import PhpStyle.Php.Lexer
import PhpStyle.Php.Structure
import PhpStyle.Php.Words
import PhpStyle.Run.Report

/-!
# Tokenizing PHP

From text to store: lex, settle the words, and attach the structure.
-/

namespace PhpStyle.Php

/-- The store of a PHP file. -/
def tokenize (source : String) : Except TokenizeError Store :=
  let lexemes := settleWords (lex source)
  match Store.build? lexemes (outline lexemes) with
  | .error cause => .error (.badStructure cause)
  | .ok store => .ok store

end PhpStyle.Php
