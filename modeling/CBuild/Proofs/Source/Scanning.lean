import CBuild.Proofs.Source.Including
import CBuild.Proofs.Text.Decoding

/-! The scan of a file by its bytes. What a line asks for is told by the bytes of that line, even where they spell no
text. -/

namespace CBuild.Source

theorem targetsIn_append (a b : Bytes) : targetsIn (a ++ 0x0A :: b) = targetsIn (a ++ [0x0A]) ++ targetsIn b := by
  have hfeed : targetsIn (a ++ [0x0A]) = includeTargets (Utf8.decodeLossy a ++ ['\n']) := by
    rw [targetsIn, Utf8.decodeLossy_lineFeed]
    rfl
  rw [hfeed, targetsIn, Utf8.decodeLossy_lineFeed, includeTargets, Text.lines_append, List.filterMap_append]
  rfl

/-- A file whose first part does not end in a carriage return asks for what the part before a line feed asks for, and
then for what the part behind it asks for. Whatever bytes a line has, those before and behind it ask for the same. -/
theorem targetsIn_lineFeed (a b : Bytes) :
    (a.getLast? ≠ some 0x0D → targetsIn (a ++ 0x0A :: b) = targetsIn a ++ targetsIn b) ∧
      ∀ x, targetsIn (a ++ 0x0A :: (x ++ 0x0A :: b)) =
        targetsIn (a ++ [0x0A]) ++ targetsIn (x ++ [0x0A]) ++ targetsIn b := by
  refine ⟨fun ha => ?_, fun x => ?_⟩
  · have hlast := Utf8.getLast?_decodeLossy ha
    rw [targetsIn_append]
    congr 1
    rw [targetsIn, Utf8.decodeLossy_lineFeed]
    exact Text.filterMap_lines_append rfl hlast
  · rw [targetsIn_append, targetsIn_append x, List.append_assoc]

theorem targetsIn_brokenOff :
    (Utf8.encode "#include \"a.h\" " ++ [0xF0, 0x9F, 0x98]).getLast? ≠ some 0x0D ∧
      targetsIn (Utf8.encode "#include \"a.h\" " ++ [0xF0, 0x9F, 0x98] ++ 0x0A :: Utf8.encode "#include \"b.h\"") =
        ["a.h".toList, "b.h".toList] := by
  have hlast : (Utf8.encode "#include \"a.h\" " ++ [0xF0, 0x9F, 0x98]).getLast? ≠ some 0x0D := by decide
  refine ⟨hlast, ?_⟩
  rw [(targetsIn_lineFeed _ _).1 hlast]
  decide

end CBuild.Source
