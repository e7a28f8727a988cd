import TermRules.Bytes

/-!
# Places in rule files

A place names a file, a line and a column. Lines and columns count from one and
zero stands for an unknown part. Reading a byte moves a place forward: a newline
opens the next line and every other byte takes one column.
-/

namespace TermRules

structure Loc where
  file : UInt32
  line : UInt32
  column : UInt32
deriving DecidableEq, Repr, Inhabited

namespace Loc

def unknown : Loc := ⟨0, 0, 0⟩

def ofFile (file : UInt32) : Loc := ⟨file, 0, 0⟩

def start (file : UInt32) : Loc := ⟨file, 1, 1⟩

def afterByte (l : Loc) (b : UInt8) : Loc :=
  if b = Byte.newline then { l with line := l.line + 1, column := 1 }
  else { l with column := l.column + 1 }

def after (l : Loc) (text : Bytes) : Loc := text.foldl afterByte l

theorem after_nil (l : Loc) : l.after [] = l := rfl

theorem after_cons (l : Loc) (b : UInt8) (text : Bytes) :
    l.after (b :: text) = (l.afterByte b).after text := rfl

theorem after_append (l : Loc) (s t : Bytes) : l.after (s ++ t) = (l.after s).after t :=
  List.foldl_append

end Loc

end TermRules
