import PolyGenSupport.Csv.Reader

/-!
# Fields and columns

What `parse_line` and `get` do on any text, not only on one an RFC 4180 writer wrote.

* On a line without `"`, `parse_line` is `List.splitOn` at the delimiter
  (`parseLine_eq_splitOn`): the quote state never leaves `false`, and the field being read is
  the head of what is left to split.
* On any line, `parse_line` returns one field more than there are delimiters outside quotes,
  a byte being outside when an even number of quotes stands before it (`length_parseLine`):
  a doubled quote inside quotes and a toggle twice leave the same state.
* The constructor's loop `header_index_[headers_[i]] = i` leaves each header at the last column
  that has it (`find_indexHeaders_last`).  Every reader a program can hold (`Reachable`) keeps
  that index with its header, since `next()` changes neither, so `get(column)` is `get(index)`
  at the last column named `column`, and empty when none is (`get_lastColumn`).
-/

namespace PolyGenSupport
namespace Csv

open Json (ascii)
open Store (UnorderedMap)

/-! ## `parse_line` without quotes -/

/-- The loop of `parse_line` over a rest without quotes: the pieces between delimiters, the first
one after the field being read. -/
theorem parseLineLoop_splitOn {d : UInt8} {line : List UInt8} (hline : '"'.toUInt8 ∉ line)
    (result : List (List UInt8)) (current : List UInt8) :
    parseLineLoop d line result current false =
      result ++ (line.splitOn d).modifyHead (current ++ ·) := by
  induction line generalizing result current with
  | nil => simp [parseLineLoop]
  | cons c line ih =>
    simp only [List.mem_cons, not_or] at hline
    rw [parseLineLoop_cons (Ne.symm hline.1), List.splitOn, List.splitOnP_cons]
    by_cases hc : c = d
    · subst hc
      simp [ih hline.2, List.splitOn]
      cases List.splitOnP (· == c) line <;> rfl
    · simp [hc, ih hline.2, List.splitOn, List.modifyHead_modifyHead, Function.comp_def]

/-- On a line without quotes `parse_line` splits at every delimiter, as `List.splitOn` does. -/
theorem parseLine_eq_splitOn (d : UInt8) {line : List UInt8} (hline : '"'.toUInt8 ∉ line) :
    parseLine d line = line.splitOn d := by
  rw [parseLine, parseLineLoop_splitOn hline]
  cases line.splitOn d <;> simp

/-- `a,,b`: three fields, the middle one empty. -/
theorem parseLine_eq_splitOn_empty_field :
    parseLine ','.toUInt8 (ascii "a,,b") = [ascii "a", [], ascii "b"] := by
  rw [parseLine_eq_splitOn _ (by decide)]
  decide

/-! ## How many fields

Each `"` of a line toggles the quote state of `parse_line`, except the second of a doubled
quote inside quotes, which is read as one quote of the field and leaves the state inside.
Toggling twice would leave it inside too, so the state at each byte is the parity of the quotes
before it, whatever the line: balanced or not, well-formed RFC 4180 or not. -/

/-- The delimiters of `text` that stand outside quotes, from a start inside quotes or not: those
before which the quotes, with the start, are even in number. -/
def outsideDelimiters (delimiter : UInt8) (text : List UInt8) (inQuotes : Bool) : Nat :=
  ((List.range text.length).filter fun i =>
    text[i]? = some delimiter ∧ ((text.take i).count '"'.toUInt8 + inQuotes.toNat) % 2 = 0).length

/-- The delimiters outside quotes of a line, from its first byte: that byte if it is a delimiter
outside quotes, then those of the rest, from a state the byte toggles if it is a quote. -/
theorem outsideDelimiters_cons (delimiter c : UInt8) (rest : List UInt8) (inQuotes : Bool) :
    outsideDelimiters delimiter (c :: rest) inQuotes =
      outsideDelimiters delimiter rest (if c = '"'.toUInt8 then !inQuotes else inQuotes) +
        if c = delimiter ∧ inQuotes = false then 1 else 0 := by
  have hshift : ∀ i, decide ((c :: rest)[i + 1]? = some delimiter ∧
      (((c :: rest).take (i + 1)).count '"'.toUInt8 + inQuotes.toNat) % 2 = 0) =
      decide (rest[i]? = some delimiter ∧ ((rest.take i).count '"'.toUInt8 +
        (if c = '"'.toUInt8 then !inQuotes else inQuotes).toNat) % 2 = 0) := by
    intro i
    have hparity : ∀ n, ((n + if (c == '"'.toUInt8) = true then 1 else 0) + inQuotes.toNat) % 2 =
        (n + (if c = '"'.toUInt8 then !inQuotes else inQuotes).toNat) % 2 := by
      intro n
      by_cases hc : c = '"'.toUInt8 <;> cases inQuotes <;> simp [hc]
      omega
    rw [List.getElem?_cons_succ, List.take_succ_cons, List.count_cons, hparity]
  simp only [outsideDelimiters, List.length_cons, List.range_succ_eq_map, List.filter_cons,
    List.filter_map, List.length_map, Function.comp_def, Nat.succ_eq_add_one, hshift]
  cases inQuotes <;> by_cases hc : c = delimiter <;> simp [hc]

/-- The loop of `parse_line` from any state: the fields pushed so far, then one field more than
there are delimiters outside quotes in the rest. -/
theorem length_parseLineLoop {d : UInt8} (hd : d ≠ '"'.toUInt8) (line : List UInt8)
    (result : List (List UInt8)) (current : List UInt8) (inQuotes : Bool) :
    (parseLineLoop d line result current inQuotes).length =
      result.length + outsideDelimiters d line inQuotes + 1 := by
  induction line, result, current, inQuotes using parseLineLoop.induct d with
  | case1 result current inQuotes => simp [parseLineLoop, outsideDelimiters]
  | case2 result current inQuotes c' line' hdoubled ih =>
    obtain ⟨rfl, rfl⟩ := hdoubled
    rw [parseLineLoop_quote, if_pos ⟨rfl, rfl⟩, List.tail_cons, ih, outsideDelimiters_cons,
      outsideDelimiters_cons]
    simp [Ne.symm hd]
  | case3 result current inQuotes c' line' htoggle ih =>
    rw [parseLineLoop_quote, if_neg (by simpa using htoggle), ih, outsideDelimiters_cons d '"'.toUInt8]
    simp [Ne.symm hd]
  | case4 result current inQuotes ih =>
    rw [parseLineLoop_quote, if_neg (by simp), ih, outsideDelimiters_cons d '"'.toUInt8]
    simp [Ne.symm hd]
  | case5 c line result current inQuotes hquote hsplit ih =>
    rw [parseLineLoop_cons hquote, if_pos hsplit, ih, outsideDelimiters_cons, if_neg hquote]
    simp only [Bool.not_eq_true', Bool.not_eq_eq_eq_not, Bool.not_true] at hsplit
    simp [hsplit]
    omega
  | case6 c line result current inQuotes hquote hkeep ih =>
    rw [parseLineLoop_cons hquote, if_neg hkeep, ih, outsideDelimiters_cons, if_neg hquote]
    simp only [Bool.not_eq_true', Bool.not_eq_eq_eq_not, Bool.not_true] at hkeep
    simp [hkeep]

/-- `parse_line` on any line, its quotes balanced or not: one field more than there are
delimiters outside quotes.  A doubled quote inside quotes, one quote of the field, splits nothing,
and a quote left open makes the rest of the line one field. -/
theorem length_parseLine {d : UInt8} (hd : d ≠ '"'.toUInt8) (line : List UInt8) :
    (parseLine d line).length = outsideDelimiters d line false + 1 := by
  rw [parseLine, length_parseLineLoop hd, List.length_nil, Nat.zero_add]

/-- The line `"a,""b",c,"d`: the delimiters inside quotes split nothing, and the last field
runs to the end of the line. -/
theorem length_parseLine_open_quote :
    (parseLine ','.toUInt8 (ascii "\"a,\"\"b\",c,\"d")).length =
      outsideDelimiters ','.toUInt8 (ascii "\"a,\"\"b\",c,\"d") false + 1 :=
  length_parseLine (by decide) _

/-! ## Columns -/

/-- The constructor's loop, one header more: the last header takes its position. -/
theorem find_indexHeaders_concat (headers : List (List UInt8)) (header name : List UInt8) :
    (indexHeaders (headers ++ [header])).find name =
      if name = header then some headers.length else (indexHeaders headers).find name := by
  rw [indexHeaders, List.length_append, List.length_singleton, List.range_succ,
    List.zip_append (by simp), List.foldl_append]
  simp only [List.zip_cons_cons, List.zip_nil_right, List.foldl_cons, List.foldl_nil,
    UnorderedMap.find_update]
  rfl

/-- A header finds the last column that has it. -/
theorem find_indexHeaders_last {headers : List (List UInt8)} {name : List UInt8} {j : Nat}
    (hj : j < headers.length) (hname : headers[j] = name)
    (hlast : ∀ j' (hj' : j' < headers.length), j < j' → headers[j'] ≠ name) :
    (indexHeaders headers).find name = some j := by
  induction headers using List.reverseRecOn with
  | nil => cases hj
  | append_singleton headers header ih =>
    rw [find_indexHeaders_concat]
    by_cases hheader : name = header
    · have : j = headers.length := by
        by_contra hne
        have hlt : j < headers.length := by simp at hj; omega
        exact hlast headers.length (by simp) hlt (by simp [hheader])
      simp [hheader, this]
    · have hlt : j < headers.length := by
        by_contra hge
        have : j = headers.length := by simp at hj; omega
        subst this
        simp at hname
        exact hheader hname.symm
      rw [if_neg hheader]
      refine ih hlt (by simpa [List.getElem_append_left hlt] using hname) fun j' hj' hjj' => ?_
      have := hlast j' (by simp; omega) hjj'
      rwa [List.getElem_append_left hj'] at this

namespace CsvReader

/-- The readers a program can hold: one just constructed over a text, and one after any number
of calls of `next()`. -/
inductive Reachable : CsvReader → Prop
  | create (stream : List UInt8) (delimiter : UInt8) : Reachable (create stream delimiter)
  | next {r : CsvReader} : Reachable r → Reachable r.next.2

/-- `next()` keeps the header and its index. -/
theorem next_headers_headerIndex (r : CsvReader) :
    r.next.2.headers = r.headers ∧ r.next.2.headerIndex = r.headerIndex := by
  cases hget : getline r.stream with
  | none => simp [next, hget]
  | some read => simp [next_of_getline hget]

/-- Every reachable reader's index is the constructor's index of its header. -/
theorem Reachable.headerIndex_eq {r : CsvReader} (hr : r.Reachable) :
    r.headerIndex = indexHeaders r.headers := by
  induction hr with
  | create stream delimiter =>
    cases hget : getline stream with
    | none => rw [getline_eq_none.mp hget, create_nil]; rfl
    | some read => rw [create_of_getline hget]
  | next _ ih => rw [(next_headers_headerIndex _).1, (next_headers_headerIndex _).2, ih]

theorem getIndex_eq_getD (r : CsvReader) (index : Nat) :
    r.getIndex index = r.currentValues.getD index [] := by
  simp only [getIndex, List.getD_eq_getElem?_getD]
  split_ifs with hi
  · simp [List.getElem?_eq_getElem hi]
  · simp [List.getElem?_eq_none (Nat.le_of_not_lt hi)]

/-- `get(column)` on every reachable reader is `get(index)` at the last column whose header is
`column`, and empty when no header is `column`. -/
theorem get_lastColumn {r : CsvReader} (hr : r.Reachable) (column : List UInt8) :
    (column ∉ r.headers → r.get column = []) ∧
      ∀ j (hj : j < r.headers.length), r.headers[j] = column →
        (∀ j' (hj' : j' < r.headers.length), j < j' → r.headers[j'] ≠ column) →
        r.get column = r.getIndex j := by
  refine ⟨fun hcolumn => get_of_find_none ?_, fun j hj hcolumn hlast => ?_⟩
  · rw [hr.headerIndex_eq]
    exact find_indexHeaders_of_not_mem hcolumn
  · rw [get_of_find (hr.headerIndex_eq ▸ find_indexHeaders_last hj hcolumn hlast),
      getIndex_eq_getD]

end CsvReader

/-- The header `a,b,a`: after the first `next()`, `get("a")` is the third field. -/
theorem get_lastColumn_duplicate :
    ((CsvReader.create (ascii "a,b,a\nx,y,z\n") ','.toUInt8).next.2).get (ascii "a") =
      ascii "z" := by
  rw [(CsvReader.get_lastColumn (.next (.create _ _)) _).2 2 (by decide) (by decide) (by decide)]
  decide

end Csv
end PolyGenSupport
