import PolyGenSupport.Csv.Stoi
import PolyGenSupport.Store.Index

/-!
# `CsvReader`

The stream is modelled by its unread text and `std::getline` by `getline`: the text up to the
next LF, which is consumed and not stored.  A CR before the LF stays in the line.

`parse_line` walks the line with an index and a one-byte look-ahead; `parseLineLoop` walks the
unread rest of it, with the fields pushed so far, the field being read and the quote state.
Outside quotes a `"` opens them and the delimiter ends a field; inside, a doubled `"` is one
quote and a single `"` closes them.  Every other byte is part of the field.

`header_index_` is a `std::unordered_map`, the `UnorderedMap` of the index layer.  The reader
keeps no other state that a call reads: `current_line_` only carries a line from `getline` to
`parse_line`.

The parse helpers call the library conversions of `PolyGenSupport.Csv.Library`.  `parse_i32`,
`parse_i64`, `parse_u64` and `parse_f64` are one helper, `parseWith`, at their conversion;
`parse_u32` also narrows what `std::stoul` returns.
-/

namespace PolyGenSupport
namespace Csv

open Json (StdException ascii)
open Store (UnorderedMap)

/-- `std::getline(stream, line)`: the text up to the next LF, and the text after that LF; it
fails only when no text is left. -/
def getline : List UInt8 → Option (List UInt8 × List UInt8)
  | [] => none
  | c :: rest =>
    some ((c :: rest).takeWhile (· ≠ '\n'.toUInt8),
      ((c :: rest).dropWhile (· ≠ '\n'.toUInt8)).drop 1)

/-- `getline` reads a line that is followed by LF. -/
theorem getline_append {line : List UInt8} (hline : '\n'.toUInt8 ∉ line) (rest : List UInt8) :
    getline (line ++ '\n'.toUInt8 :: rest) = some (line, rest) := by
  have hsplit : (line ++ '\n'.toUInt8 :: rest).takeWhile (· ≠ '\n'.toUInt8) = line ∧
      (line ++ '\n'.toUInt8 :: rest).dropWhile (· ≠ '\n'.toUInt8) = '\n'.toUInt8 :: rest := by
    induction line with
    | nil => simp
    | cons c line ih =>
      simp only [List.mem_cons, not_or] at hline
      have hc : decide (c ≠ '\n'.toUInt8) = true := by simpa using Ne.symm hline.1
      simp only [List.cons_append, List.takeWhile_cons, List.dropWhile_cons, hc, ↓reduceIte,
        ih hline.2, and_self]
  cases line <;> simp_all [getline]

/-- The lines of a text as a reader of lines sees them: the pieces between LFs, without the
empty piece after a final LF (and without the one piece of an empty text). -/
def textLines (text : List UInt8) : List (List UInt8) :=
  let pieces := text.splitOn '\n'.toUInt8
  if pieces.getLast? = some [] then pieces.dropLast else pieces

@[simp] theorem textLines_nil : textLines [] = [] := rfl

theorem textLines_append_lf {line : List UInt8} (hline : '\n'.toUInt8 ∉ line)
    (rest : List UInt8) : textLines (line ++ '\n'.toUInt8 :: rest) = line :: textLines rest := by
  have hsplit : (line ++ '\n'.toUInt8 :: rest).splitOn '\n'.toUInt8 =
      line :: rest.splitOn '\n'.toUInt8 :=
    List.splitOnP_first _ _ (fun x hx h => hline (by simp at h; exact h ▸ hx)) _ (by simp) _
  obtain ⟨p, ps, hp⟩ :=
    List.exists_cons_of_ne_nil (List.splitOnP_ne_nil (· == '\n'.toUInt8) rest)
  have hp' : rest.splitOn '\n'.toUInt8 = p :: ps := hp
  simp only [textLines, hsplit, hp', List.getLast?_cons_cons]
  split_ifs <;> simp [List.dropLast_cons_of_ne_nil]

theorem textLines_of_not_mem {line : List UInt8} (hline : '\n'.toUInt8 ∉ line)
    (hne : line ≠ []) : textLines line = [line] := by
  have : line.splitOn '\n'.toUInt8 = [line] :=
    List.splitOnP_eq_single _ _ fun x hx h => hline (by simp at h; exact h ▸ hx)
  simp [textLines, this, hne]

/-- Lines each followed by LF are the lines of the text they make. -/
theorem textLines_flatMap {lines : List (List UInt8)}
    (hlines : ∀ line ∈ lines, '\n'.toUInt8 ∉ line) :
    textLines (lines.flatMap (· ++ ['\n'.toUInt8])) = lines := by
  induction lines with
  | nil => rfl
  | cons line lines ih =>
    rw [List.flatMap_cons, List.append_assoc, List.singleton_append,
      textLines_append_lf (hlines line (List.mem_cons_self _ _)),
      ih fun l hl => hlines l (List.mem_cons_of_mem _ hl)]

/-- A text with an LF is a line, its first LF and the rest. -/
theorem exists_first_lf {text : List UInt8} (h : '\n'.toUInt8 ∈ text) :
    ∃ line rest, text = line ++ '\n'.toUInt8 :: rest ∧ '\n'.toUInt8 ∉ line := by
  induction text with
  | nil => cases h
  | cons c text ih =>
    by_cases hc : c = '\n'.toUInt8
    · exact ⟨[], text, by rw [hc]; rfl, List.not_mem_nil _⟩
    · obtain ⟨line, rest, rfl, hline⟩ := ih ((List.mem_cons.mp h).resolve_left (Ne.symm hc))
      exact ⟨c :: line, rest, rfl, by simp [hline, Ne.symm hc]⟩

theorem getline_eq_none {text : List UInt8} : getline text = none ↔ text = [] := by
  cases text <;> simp [getline]

/-- `getline` reads the first of the text's lines and leaves the others. -/
theorem textLines_of_getline {text line rest : List UInt8}
    (h : getline text = some (line, rest)) : textLines text = line :: textLines rest := by
  by_cases hmem : '\n'.toUInt8 ∈ text
  · obtain ⟨line', rest', rfl, hline'⟩ := exists_first_lf hmem
    rw [getline_append hline'] at h
    obtain ⟨rfl, rfl⟩ := Prod.mk.inj (Option.some.inj h)
    exact textLines_append_lf hline' _
  · cases text with
    | nil => simp [getline] at h
    | cons c text =>
      have htake : (c :: text).takeWhile (· ≠ '\n'.toUInt8) = c :: text :=
        List.takeWhile_eq_self_iff.mpr fun x hx => decide_eq_true fun h => hmem (h ▸ hx)
      have hdrop : (c :: text).dropWhile (· ≠ '\n'.toUInt8) = [] :=
        List.dropWhile_eq_nil_iff.mpr fun x hx => decide_eq_true fun h => hmem (h ▸ hx)
      simp only [getline, htake, hdrop, List.drop_nil, Option.some.injEq, Prod.mk.injEq] at h
      obtain ⟨rfl, rfl⟩ := h
      rw [textLines_of_not_mem hmem (List.cons_ne_nil _ _), textLines_nil]

/-- A text that ends with LF has one line per LF. -/
theorem length_textLines_append_lf (text : List UInt8) :
    (textLines (text ++ ['\n'.toUInt8])).length = (text ++ ['\n'.toUInt8]).count '\n'.toUInt8 := by
  by_cases hmem : '\n'.toUInt8 ∈ text
  · obtain ⟨line, rest, rfl, hline⟩ := exists_first_lf hmem
    have : rest.length < (line ++ '\n'.toUInt8 :: rest).length := by simp; omega
    rw [List.append_assoc, List.cons_append, textLines_append_lf hline, List.length_cons,
      length_textLines_append_lf rest]
    simp [List.count_append, List.count_eq_zero_of_not_mem hline]
  · rw [textLines_append_lf hmem, textLines_nil]
    simp [List.count_append, List.count_eq_zero_of_not_mem hmem]
termination_by text.length

/-- The loop of `parse_line` over the rest of the line, with the fields pushed so far, the field
being read and whether the loop is inside quotes; at the end the last field is pushed. -/
def parseLineLoop (delimiter : UInt8) :
    List UInt8 → List (List UInt8) → List UInt8 → Bool → List (List UInt8)
  | [], result, current, _ => result ++ [current]
  | c :: line, result, current, inQuotes =>
    if c = '"'.toUInt8 then
      match line with
      | c' :: line' =>
        if inQuotes ∧ c' = '"'.toUInt8 then
          parseLineLoop delimiter line' result (current ++ ['"'.toUInt8]) inQuotes
        else parseLineLoop delimiter (c' :: line') result current (!inQuotes)
      | [] => parseLineLoop delimiter [] result current (!inQuotes)
    else if c = delimiter ∧ !inQuotes then
      parseLineLoop delimiter line (result ++ [current]) [] inQuotes
    else parseLineLoop delimiter line result (current ++ [c]) inQuotes

/-- One step of `parse_line` at a `"`: a doubled quote inside quotes is one quote, any other
toggles the quote state. -/
theorem parseLineLoop_quote (delimiter : UInt8) (line : List UInt8) (result : List (List UInt8))
    (current : List UInt8) (inQuotes : Bool) :
    parseLineLoop delimiter ('"'.toUInt8 :: line) result current inQuotes =
      if inQuotes ∧ line.head? = some '"'.toUInt8 then
        parseLineLoop delimiter line.tail result (current ++ ['"'.toUInt8]) inQuotes
      else parseLineLoop delimiter line result current (!inQuotes) := by
  cases line <;> simp [parseLineLoop]

/-- One step of `parse_line` at any other byte: the delimiter outside quotes ends the field, and
everything else is read into it. -/
theorem parseLineLoop_cons {c : UInt8} (hc : c ≠ '"'.toUInt8) (delimiter : UInt8)
    (line : List UInt8) (result : List (List UInt8)) (current : List UInt8) (inQuotes : Bool) :
    parseLineLoop delimiter (c :: line) result current inQuotes =
      if c = delimiter ∧ !inQuotes then
        parseLineLoop delimiter line (result ++ [current]) [] inQuotes
      else parseLineLoop delimiter line result (current ++ [c]) inQuotes := by
  cases line <;> simp [parseLineLoop, hc]

/-- `parse_line`: the fields of a line. -/
def parseLine (delimiter : UInt8) (line : List UInt8) : List (List UInt8) :=
  parseLineLoop delimiter line [] [] false

/-- The constructor's loop `header_index_[headers_[i]] = i`, over each header with its
position. -/
def indexHeaders (headers : List (List UInt8)) : UnorderedMap (List UInt8) Nat :=
  (headers.zip (List.range headers.length)).foldl (fun m e => m.update e.1 (fun _ => e.2) 0)
    UnorderedMap.empty

/-- Folding `operator[]` assignments: a key finds the value of its last assignment, or what it
found before. -/
theorem find_foldl_update (entries : List (List UInt8 × Nat)) (m : UnorderedMap (List UInt8) Nat)
    (key : List UInt8) :
    (entries.foldl (fun m e => m.update e.1 (fun _ => e.2) 0) m).find key =
      ((entries.reverse.find? fun e => e.1 = key).map Prod.snd).or (m.find key) := by
  induction entries generalizing m with
  | nil => simp
  | cons e entries ih =>
    rw [List.foldl_cons, ih, UnorderedMap.find_update, List.reverse_cons, List.find?_append]
    by_cases h : key = e.1
    · subst h
      cases entries.reverse.find? fun e' => e'.1 = e.1 <;> simp
    · cases entries.reverse.find? fun e' => e'.1 = key <;> simp [h, Ne.symm h]

/-- Distinct headers each find their position. -/
theorem find_indexHeaders {headers : List (List UInt8)} (hnodup : headers.Nodup) {j : Nat}
    (hj : j < headers.length) : (indexHeaders headers).find headers[j] = some j := by
  have hkeys : ((headers.zip (List.range headers.length)).reverse.map Prod.fst).Nodup := by
    rw [List.map_reverse, List.map_fst_zip _ _ (by simp), List.nodup_reverse]
    exact hnodup
  have hmem : (headers[j], j) ∈ (headers.zip (List.range headers.length)).reverse := by
    rw [List.mem_reverse, List.mem_iff_getElem]
    exact ⟨j, by simpa using hj, by simp⟩
  rw [indexHeaders, find_foldl_update, Store.lookup_of_mem hkeys hmem]
  rfl

/-- A key that is no header finds nothing. -/
theorem find_indexHeaders_of_not_mem {headers : List (List UInt8)} {key : List UInt8}
    (hkey : key ∉ headers) : (indexHeaders headers).find key = none := by
  have hnone : ((headers.zip (List.range headers.length)).reverse.find? fun e => e.1 = key) =
      none := by
    rw [List.find?_eq_none]
    rintro ⟨k, i⟩ he hk
    simp only [decide_eq_true_eq] at hk
    exact hkey (hk ▸ (List.of_mem_zip (List.mem_reverse.mp he)).1)
  rw [indexHeaders, find_foldl_update, hnone]
  rfl

/-- A `CsvReader`: the unread text of its stream, its delimiter, the header line's fields, the
current record's fields and each header's column. -/
structure CsvReader where
  stream : List UInt8
  delimiter : UInt8
  headers : List (List UInt8)
  currentValues : List (List UInt8)
  headerIndex : UnorderedMap (List UInt8) Nat

namespace CsvReader

/-- `CsvReader(stream, delimiter)`: read the header line, if there is one, and index its
fields.  The source's default delimiter is `,`. -/
def create (stream : List UInt8) (delimiter : UInt8) : CsvReader :=
  match getline stream with
  | some (line, rest) =>
    ⟨rest, delimiter, parseLine delimiter line, [], indexHeaders (parseLine delimiter line)⟩
  | none => ⟨[], delimiter, [], [], UnorderedMap.empty⟩

/-- `next()`: read the next line into the current record, or return `false` at the end. -/
def next (r : CsvReader) : Bool × CsvReader :=
  match getline r.stream with
  | some (line, rest) =>
    (true, { r with stream := rest, currentValues := parseLine r.delimiter line })
  | none => (false, r)

/-- `get(column)`: the current record's field in the column of that header; empty when there is
no such header or the record is shorter. -/
def get (r : CsvReader) (column : List UInt8) : List UInt8 :=
  match r.headerIndex.find column with
  | none => []
  | some i => if h : i < r.currentValues.length then r.currentValues.get ⟨i, h⟩ else []

/-- `get(index)`: the current record's field at a position; empty past its end. -/
def getIndex (r : CsvReader) (index : Nat) : List UInt8 :=
  if h : index < r.currentValues.length then r.currentValues.get ⟨index, h⟩ else []

/-- The reader after `k` calls of `next()`. -/
def afterNext (r : CsvReader) : Nat → CsvReader
  | 0 => r
  | k + 1 => afterNext r.next.2 k

theorem create_of_getline {stream line rest : List UInt8} (h : getline stream = some (line, rest))
    (delimiter : UInt8) :
    create stream delimiter =
      ⟨rest, delimiter, parseLine delimiter line, [],
        indexHeaders (parseLine delimiter line)⟩ := by
  simp [create, h]

theorem create_nil (delimiter : UInt8) :
    create [] delimiter = ⟨[], delimiter, [], [], UnorderedMap.empty⟩ := rfl

theorem next_of_getline {r : CsvReader} {line rest : List UInt8}
    (h : getline r.stream = some (line, rest)) :
    r.next = (true, { r with stream := rest, currentValues := parseLine r.delimiter line }) := by
  simp [next, h]

theorem next_of_nil {r : CsvReader} (h : r.stream = []) : r.next = (false, r) := by
  simp [next, h, getline]

/-- At the end of the stream `next()` changes nothing. -/
theorem afterNext_of_nil {r : CsvReader} (h : r.stream = []) (k : Nat) : r.afterNext k = r := by
  induction k with
  | zero => rfl
  | succ k ih => rw [afterNext, next_of_nil h, ih]

/-- Each `next()` reads the next of the stream's lines: after `k` calls the next call returns
whether a `k`-th line is left and reads it into the current record; the header and its index
stay as they are. -/
theorem next_afterNext (r : CsvReader) (k : Nat) :
    (r.afterNext k).next.1 = decide (k < (textLines r.stream).length) ∧
      (r.afterNext k).next.2.headers = r.headers ∧
      (r.afterNext k).next.2.headerIndex = r.headerIndex ∧
      ∀ hk : k < (textLines r.stream).length,
        (r.afterNext k).next.2.currentValues = parseLine r.delimiter (textLines r.stream)[k] := by
  induction k generalizing r with
  | zero =>
    cases hget : getline r.stream with
    | none =>
      have hnil := getline_eq_none.mp hget
      simp [afterNext, next_of_nil hnil, hnil]
    | some read => simp [afterNext, next_of_getline hget, textLines_of_getline hget]
  | succ k ih =>
    cases hget : getline r.stream with
    | none =>
      have hnil := getline_eq_none.mp hget
      simp [afterNext_of_nil hnil, next_of_nil hnil, hnil]
    | some read =>
      rw [afterNext, next_of_getline hget, textLines_of_getline hget]
      simpa using ih _

/-- On a stream of lines each followed by LF, the `k`-th call of `next()` reads the `k`-th
line. -/
theorem next_afterNext_lines (lines : List (List UInt8))
    (hlines : ∀ line ∈ lines, '\n'.toUInt8 ∉ line) (r : CsvReader)
    (hstream : r.stream = lines.flatMap (· ++ ['\n'.toUInt8])) (k : Nat) :
    (r.afterNext k).next.1 = decide (k < lines.length) ∧
      (r.afterNext k).next.2.headers = r.headers ∧
      (r.afterNext k).next.2.headerIndex = r.headerIndex ∧
      ∀ hk : k < lines.length,
        (r.afterNext k).next.2.currentValues = parseLine r.delimiter lines[k] := by
  have h := next_afterNext r k
  rwa [hstream, textLines_flatMap hlines] at h

/-- The constructor reads the text's first line as the header and leaves the others. -/
theorem create_textLines (text : List UInt8) (delimiter : UInt8) :
    (create text delimiter).delimiter = delimiter ∧
      (create text delimiter).headers =
        ((textLines text).head?.map (parseLine delimiter)).getD [] ∧
      textLines (create text delimiter).stream = (textLines text).tail := by
  cases hget : getline text with
  | none =>
    obtain rfl := getline_eq_none.mp hget
    simp [create_nil]
  | some read => simp [create_of_getline hget, textLines_of_getline hget]

/-- `CsvReader` over any text: the header is the first of the text's lines, and the
`k + 1`-th call of `next()` returns whether the text has a line after its first `k + 1` and
reads that line into the current record. -/
theorem create_afterNext_textLines (text : List UInt8) (delimiter : UInt8) (k : Nat) :
    (create text delimiter).headers =
        ((textLines text).head?.map (parseLine delimiter)).getD [] ∧
      ((create text delimiter).afterNext k).next.1 = decide (k + 1 < (textLines text).length) ∧
      ∀ hk : k + 1 < (textLines text).length,
        ((create text delimiter).afterNext k).next.2.currentValues =
          parseLine delimiter (textLines text)[k + 1] := by
  obtain ⟨hdelimiter, hheaders, hstream⟩ := create_textLines text delimiter
  obtain ⟨hnext, -, -, hvalues⟩ := next_afterNext (create text delimiter) k
  rw [hstream] at hnext hvalues
  rw [hdelimiter] at hvalues
  refine ⟨hheaders, by simpa [Nat.lt_sub_iff_add_lt] using hnext, fun hk => ?_⟩
  rw [hvalues (by simp; omega), List.getElem_tail]

theorem get_of_find {r : CsvReader} {column : List UInt8} {i : Nat}
    (h : r.headerIndex.find column = some i) : r.get column = r.currentValues.getD i [] := by
  simp only [get, h, List.getD_eq_getElem?_getD]
  split_ifs with hi
  · simp [List.getElem?_eq_getElem hi]
  · simp [List.getElem?_eq_none (Nat.le_of_not_lt hi)]

theorem get_of_find_none {r : CsvReader} {column : List UInt8}
    (h : r.headerIndex.find column = none) : r.get column = [] := by
  simp [get, h]

/-- A reader whose headers are distinct and indexed, at a record of one field per header, gives
each header its field. -/
theorem map_get_headers {r : CsvReader} (hnodup : r.headers.Nodup)
    (hindex : r.headerIndex = indexHeaders r.headers)
    (hlength : r.currentValues.length = r.headers.length) :
    r.headers.map r.get = r.currentValues := by
  refine List.ext_getElem (by simp [hlength]) fun j hj _ => ?_
  rw [List.getElem_map, get_of_find (hindex ▸ find_indexHeaders hnodup (by simpa using hj)),
    List.getD_eq_getElem?_getD, List.getElem?_eq_getElem (by simp_all)]
  rfl

end CsvReader

/-- The body `parse_i32`, `parse_i64`, `parse_u64` and `parse_f64` share: `0` for an empty
field, else the library conversion. -/
def parseWith {w : Nat} (convert : List UInt8 → Except StdException (BitVec w))
    (s : List UInt8) : Except StdException (BitVec w) :=
  if s.isEmpty then .ok 0 else convert s

/-- `parse_i32`. -/
def parseI32 : List UInt8 → Except StdException (BitVec 32) := parseWith Library.stoi

/-- `parse_i64`. -/
def parseI64 : List UInt8 → Except StdException (BitVec 64) := parseWith Library.stoll

/-- `parse_u32`: `std::stoul`, narrowed by `static_cast<uint32_t>`. -/
def parseU32 (s : List UInt8) : Except StdException (BitVec 32) :=
  if s.isEmpty then .ok 0 else BitVec.truncate 32 <$> Library.stoul s

/-- `parse_u64`. -/
def parseU64 : List UInt8 → Except StdException (BitVec 64) := parseWith Library.stoull

/-- `parse_f64`: the bits of the `double`, `0.0` for an empty field. -/
def parseF64 : List UInt8 → Except StdException (BitVec 64) := parseWith Json.Library.stod

/-- `parse_bool`. -/
def parseBool (s : List UInt8) : Bool :=
  if s.isEmpty then false
  else s = ascii "true" || s = ascii "1" || s = ascii "True" || s = ascii "TRUE"

/-- `parse_enum<E>`: the `int32_t` of `parse_i32`, which `static_cast<E>` keeps as `E`'s
underlying value. -/
def parseEnum : List UInt8 → Except StdException (BitVec 32) := parseI32

end Csv
end PolyGenSupport
