import PolyGenSupport.Csv.Reader

/-!
# `CsvReader` against an RFC 4180 writer

The writer the reader is compared with: a field is written as it is, or, when it contains the
delimiter, `"`, CR or LF, between quotes with every inner `"` doubled (`writeField`); a record is
its fields separated by the delimiter (`writeRecord`); a table is its records, each followed by a
line break (`writeTable`), LF or CRLF.

`parse_line` inverts `writeField` field by field (`parseLineLoop_writeField`), as long as what
follows a quoted field does not start with `"`, so it reads a record back
(`parseLine_writeRecord`), with whatever sits between the record and its LF appended to its last
field.  `getline` splits a table at its LFs (`getline_append`), and each `next()` reads one line
(`next_afterNext_lines`).

With LF line breaks the reader gives back every field of every record (`readBack_lf`).  With
CRLF, `getline` leaves the CR in the line: the last header and every last field end in CR, and
`get` of the last header finds no column and returns the empty string (`readBack_crlf`).
-/

namespace PolyGenSupport
namespace Csv

/-! ## The writer -/

/-- A field with every `"` doubled. -/
def doubleQuotes : List UInt8 → List UInt8
  | [] => []
  | c :: field =>
    if c = '"'.toUInt8 then c :: c :: doubleQuotes field else c :: doubleQuotes field

/-- A field as an RFC 4180 writer writes it: between quotes, with inner quotes doubled, when it
contains the delimiter, `"`, CR or LF, else as it is. -/
def writeField (delimiter : UInt8) (field : List UInt8) : List UInt8 :=
  if delimiter ∈ field ∨ '"'.toUInt8 ∈ field ∨ '\r'.toUInt8 ∈ field ∨ '\n'.toUInt8 ∈ field then
    '"'.toUInt8 :: doubleQuotes field ++ ['"'.toUInt8]
  else field

/-- A record: its fields written and separated by the delimiter. -/
def writeRecord (delimiter : UInt8) : List (List UInt8) → List UInt8
  | [] => []
  | [field] => writeField delimiter field
  | field :: next :: fields =>
    writeField delimiter field ++ delimiter :: writeRecord delimiter (next :: fields)

/-- A table: each record followed by the line break. -/
def writeTable (delimiter : UInt8) (lineBreak : List UInt8)
    (records : List (List (List UInt8))) : List UInt8 :=
  records.flatMap fun record => writeRecord delimiter record ++ lineBreak

/-- The line break RFC 4180 prescribes. -/
def crlf : List UInt8 := ['\r'.toUInt8, '\n'.toUInt8]

/-- The bare LF line break. -/
def lf : List UInt8 := ['\n'.toUInt8]

theorem writeRecord_cons (delimiter : UInt8) (field : List UInt8) {fields : List (List UInt8)}
    (hfields : fields ≠ []) :
    writeRecord delimiter (field :: fields) =
      writeField delimiter field ++ delimiter :: writeRecord delimiter fields := by
  obtain ⟨next, fields, rfl⟩ := List.exists_cons_of_ne_nil hfields
  rfl

theorem mem_doubleQuotes {x : UInt8} {field : List UInt8} :
    x ∈ doubleQuotes field ↔ x ∈ field := by
  induction field with
  | nil => rfl
  | cons c field ih => unfold doubleQuotes; split_ifs <;> simp [ih]

theorem mem_writeField {delimiter x : UInt8} {field : List UInt8}
    (h : x ∈ writeField delimiter field) : x = '"'.toUInt8 ∨ x ∈ field := by
  unfold writeField at h
  split_ifs at h
  · simp only [List.cons_append, List.mem_cons, List.mem_append, mem_doubleQuotes,
      List.mem_singleton] at h
    tauto
  · exact .inr h

/-- A written record holds the delimiter, quotes and the bytes of its fields. -/
theorem mem_writeRecord {delimiter x : UInt8} :
    ∀ {record : List (List UInt8)}, x ∈ writeRecord delimiter record →
      x = delimiter ∨ x = '"'.toUInt8 ∨ ∃ field ∈ record, x ∈ field
  | [], h => nomatch h
  | [field], h =>
    (mem_writeField h).elim (.inr ∘ .inl) fun h => .inr (.inr ⟨field, by simp, h⟩)
  | field :: next :: fields, h => by
    simp only [writeRecord, List.mem_append, List.mem_cons] at h
    rcases h with h | h | h
    · rcases mem_writeField h with h | h
      · exact .inr (.inl h)
      · exact .inr (.inr ⟨field, by simp, h⟩)
    · exact .inl h
    · rcases mem_writeRecord h with h | h | ⟨f, hf, h⟩
      · exact .inl h
      · exact .inr (.inl h)
      · exact .inr (.inr ⟨f, List.mem_cons_of_mem _ hf, h⟩)

/-- Doubling quotes keeps every other byte. -/
theorem count_doubleQuotes {b : UInt8} (hb : b ≠ '"'.toUInt8) (field : List UInt8) :
    (doubleQuotes field).count b = field.count b := by
  induction field with
  | nil => rfl
  | cons c field ih =>
    unfold doubleQuotes
    split_ifs with hc
    · subst hc
      simp [List.count_cons, ih, Ne.symm hb]
    · simp [List.count_cons, ih]

theorem count_writeField {b : UInt8} (hb : b ≠ '"'.toUInt8) (d : UInt8) (field : List UInt8) :
    (writeField d field).count b = field.count b := by
  unfold writeField
  split_ifs
  · simp [List.count_cons, List.count_append, count_doubleQuotes hb, Ne.symm hb]
  · rfl

theorem count_writeRecord {b : UInt8} (hb : b ≠ '"'.toUInt8) {d : UInt8} (hd : d ≠ b) :
    ∀ record : List (List UInt8), (writeRecord d record).count b = record.flatten.count b
  | [] => rfl
  | [field] => by simp [writeRecord, count_writeField hb]
  | field :: next :: fields => by
    rw [writeRecord, List.count_append, List.count_cons, count_writeField hb,
      count_writeRecord hb hd (next :: fields)]
    simp [hd]

/-- A written table has one LF per record and the LFs of its fields. -/
theorem count_writeTable {d : UInt8} (hd : d ≠ '\n'.toUInt8)
    (records : List (List (List UInt8))) :
    (writeTable d lf records).count '\n'.toUInt8 =
      records.length + records.flatten.flatten.count '\n'.toUInt8 := by
  induction records with
  | nil => rfl
  | cons record records ih =>
    rw [writeTable, List.flatMap_cons, ← writeTable, List.count_append, List.count_append, ih,
      count_writeRecord (by decide) hd]
    simp [lf]
    omega

theorem writeTable_eq_append_lf (d : UInt8) {records : List (List (List UInt8))}
    (hrecords : records ≠ []) : ∃ text, writeTable d lf records = text ++ ['\n'.toUInt8] := by
  obtain ⟨init, last, rfl⟩ : ∃ init last, records = init ++ [last] :=
    ⟨_, _, (List.dropLast_append_getLast hrecords).symm⟩
  exact ⟨writeTable d lf init ++ writeRecord d last, by simp [writeTable, lf]⟩

/-! ## `parse_line` reads a record back -/

section ParseLine

variable {d : UInt8}

/-- A `"` outside quotes opens them. -/
theorem parseLineLoop_open (line : List UInt8) (result : List (List UInt8)) (current : List UInt8) :
    parseLineLoop d ('"'.toUInt8 :: line) result current false =
      parseLineLoop d line result current true := by
  simp [parseLineLoop_quote]

/-- The delimiter outside quotes ends the field. -/
theorem parseLineLoop_delimiter (hd : d ≠ '"'.toUInt8) (line : List UInt8)
    (result : List (List UInt8)) (current : List UInt8) :
    parseLineLoop d (d :: line) result current false =
      parseLineLoop d line (result ++ [current]) [] false := by
  simp [parseLineLoop_cons hd]

/-- Bytes that are neither `"` nor the delimiter are read into the field, outside quotes. -/
theorem parseLineLoop_plain {field : List UInt8} (hquote : '"'.toUInt8 ∉ field)
    (hdelimiter : d ∉ field) (line : List UInt8) (result : List (List UInt8))
    (current : List UInt8) :
    parseLineLoop d (field ++ line) result current false =
      parseLineLoop d line result (current ++ field) false := by
  induction field generalizing current with
  | nil => simp
  | cons c field ih =>
    simp only [List.mem_cons, not_or] at hquote hdelimiter
    rw [List.cons_append, parseLineLoop_cons (Ne.symm hquote.1),
      if_neg fun h => hdelimiter.1 h.1.symm, ih hquote.2 hdelimiter.2]
    simp

/-- Inside quotes, a field with its quotes doubled and then a closing `"` are read as the
field, as long as no `"` follows. -/
theorem parseLineLoop_doubleQuotes (field : List UInt8) {line : List UInt8}
    (hline : line.head? ≠ some '"'.toUInt8) (result : List (List UInt8)) (current : List UInt8) :
    parseLineLoop d (doubleQuotes field ++ '"'.toUInt8 :: line) result current true =
      parseLineLoop d line result (current ++ field) false := by
  induction field generalizing current with
  | nil => simp [doubleQuotes, parseLineLoop_quote, hline]
  | cons c field ih =>
    unfold doubleQuotes
    split_ifs with hc
    · subst hc
      simp [parseLineLoop_quote, ih]
    · simp [parseLineLoop_cons hc, ih]

/-- `parse_line` reads a written field back, as long as what follows does not start with
`"`. -/
theorem parseLineLoop_writeField (field : List UInt8) {line : List UInt8}
    (hline : line.head? ≠ some '"'.toUInt8) (result : List (List UInt8)) :
    parseLineLoop d (writeField d field ++ line) result [] false =
      parseLineLoop d line result field false := by
  unfold writeField
  split_ifs with hquoted
  · simp only [List.cons_append, List.append_assoc, List.singleton_append,
      parseLineLoop_open, parseLineLoop_doubleQuotes field hline, List.nil_append]
  · push_neg at hquoted
    rw [parseLineLoop_plain hquoted.2.1 hquoted.1, List.nil_append]

/-- `parse_line` reads a written record back; bytes after it that are neither `"` nor the
delimiter end up in its last field. -/
theorem parseLineLoop_writeRecord (hd : d ≠ '"'.toUInt8) (fields : List (List UInt8))
    (last : List UInt8) {tail : List UInt8} (hquote : '"'.toUInt8 ∉ tail)
    (hdelimiter : d ∉ tail) (result : List (List UInt8)) :
    parseLineLoop d (writeRecord d (fields ++ [last]) ++ tail) result [] false =
      result ++ fields ++ [last ++ tail] := by
  have htail : tail.head? ≠ some '"'.toUInt8 := fun h => hquote (List.mem_of_mem_head? h)
  induction fields generalizing result with
  | nil =>
    rw [List.nil_append, writeRecord, parseLineLoop_writeField last htail,
      ← List.append_nil tail, parseLineLoop_plain hquote hdelimiter]
    simp [parseLineLoop]
  | cons field fields ih =>
    rw [List.cons_append, writeRecord_cons d field (by simp), List.append_assoc, List.cons_append,
      parseLineLoop_writeField field (by simpa using hd), parseLineLoop_delimiter hd, ih]
    simp

theorem parseLine_writeRecord (hd : d ≠ '"'.toUInt8) (fields : List (List UInt8))
    (last : List UInt8) {tail : List UInt8} (hquote : '"'.toUInt8 ∉ tail)
    (hdelimiter : d ∉ tail) :
    parseLine d (writeRecord d (fields ++ [last]) ++ tail) = fields ++ [last ++ tail] := by
  simpa using parseLineLoop_writeRecord hd fields last hquote hdelimiter []

end ParseLine

/-! ## The reader over a written table -/

/-- A record with bytes appended to its last field. -/
def appendToLast (record : List (List UInt8)) (tail : List UInt8) : List (List UInt8) :=
  record.dropLast ++ record.getLast?.toList.map (· ++ tail)

theorem appendToLast_concat (fields : List (List UInt8)) (last tail : List UInt8) :
    appendToLast (fields ++ [last]) tail = fields ++ [last ++ tail] := by
  simp [appendToLast]

section ReadBack

variable {d : UInt8} {tail : List UInt8}

/-- `parse_line` reads a written record back, with `tail` on its last field. -/
theorem parseLine_writeRecord_appendToLast (hd : d ≠ '"'.toUInt8) {record : List (List UInt8)}
    (hrecord : record ≠ []) (hquote : '"'.toUInt8 ∉ tail) (hdelimiter : d ∉ tail) :
    parseLine d (writeRecord d record ++ tail) = appendToLast record tail := by
  conv_lhs => rw [← List.dropLast_append_getLast hrecord]
  rw [parseLine_writeRecord hd _ _ hquote hdelimiter, ← appendToLast_concat,
    List.dropLast_append_getLast hrecord]

theorem lf_not_mem_writeRecord (hd : d ≠ '\n'.toUInt8) {record : List (List UInt8)}
    (hrecord : ∀ field ∈ record, '\n'.toUInt8 ∉ field) :
    '\n'.toUInt8 ∉ writeRecord d record := by
  intro h
  rcases mem_writeRecord h with h | h | ⟨field, hfield, h⟩
  · exact hd h.symm
  · exact absurd h (by decide)
  · exact hrecord field hfield h

/-- The reader over a written table whose records are each followed by `tail` and LF: after `k`
calls of `next()`, the next call returns whether a `k`-th record is left and reads it with
`tail` on its last field; the header line is read the same way. -/
theorem next_afterNext_writeTable (tail : List UInt8)
    (hd : d ≠ '"'.toUInt8 ∧ d ≠ '\n'.toUInt8)
    (htail : '"'.toUInt8 ∉ tail ∧ d ∉ tail ∧ '\n'.toUInt8 ∉ tail)
    {names : List (List UInt8)} {rows : List (List (List UInt8))}
    (hrecords :
      ∀ record ∈ names :: rows, record ≠ [] ∧ ∀ field ∈ record, '\n'.toUInt8 ∉ field)
    (k : Nat) :
    let r :=
      (CsvReader.create (writeTable d (tail ++ ['\n'.toUInt8]) (names :: rows)) d).afterNext k
    r.next.1 = decide (k < rows.length) ∧ r.next.2.headers = appendToLast names tail ∧
      r.next.2.headerIndex = indexHeaders (appendToLast names tail) ∧
      ∀ hk : k < rows.length, r.next.2.currentValues = appendToLast rows[k] tail := by
  have hline : ∀ record ∈ names :: rows, '\n'.toUInt8 ∉ writeRecord d record ++ tail :=
    fun record h => by
      simpa [htail.2.2] using lf_not_mem_writeRecord hd.2 (hrecords record h).2
  have hparse : ∀ record ∈ names :: rows,
      parseLine d (writeRecord d record ++ tail) = appendToLast record tail :=
    fun record h => parseLine_writeRecord_appendToLast hd.1 (hrecords record h).1 htail.1 htail.2.1
  have hcreate : CsvReader.create (writeTable d (tail ++ ['\n'.toUInt8]) (names :: rows)) d =
      ⟨writeTable d (tail ++ ['\n'.toUInt8]) rows, d, appendToLast names tail, [],
        indexHeaders (appendToLast names tail)⟩ := by
    have htext : writeTable d (tail ++ ['\n'.toUInt8]) (names :: rows) =
        (writeRecord d names ++ tail) ++
          '\n'.toUInt8 :: writeTable d (tail ++ ['\n'.toUInt8]) rows := by
      simp [writeTable]
    simp only [CsvReader.create, htext, getline_append (hline names (List.mem_cons_self _ _)),
      hparse names (List.mem_cons_self _ _)]
  have hrun := CsvReader.next_afterNext_lines (rows.map fun row => writeRecord d row ++ tail)
    (by simpa using fun row h => hline row (List.mem_cons_of_mem _ h))
    ⟨writeTable d (tail ++ ['\n'.toUInt8]) rows, d, appendToLast names tail, [],
      indexHeaders (appendToLast names tail)⟩ (by simp [writeTable, List.flatMap_map]) k
  rw [hcreate]
  simp only [List.length_map, List.getElem_map] at hrun
  refine ⟨hrun.1, hrun.2.1, hrun.2.2.1, fun hk => ?_⟩
  rw [hrun.2.2.2 hk, hparse _ (List.mem_cons_of_mem _ (List.getElem_mem hk))]

/-- A non-empty header and rows of its length, no field holding an LF: every record of the table
is non-empty and holds no LF, as `next_afterNext_writeTable` asks. -/
theorem records_of_rows {names : List (List UInt8)} (hnames : names ≠ [])
    {rows : List (List (List UInt8))} (hrows : ∀ row ∈ rows, row.length = names.length)
    (hlines : ∀ field ∈ names ++ rows.flatten, '\n'.toUInt8 ∉ field) :
    ∀ record ∈ names :: rows,
      record ≠ [] ∧ ∀ field ∈ record, '\n'.toUInt8 ∉ field := by
  intro record h
  rcases List.mem_cons.mp h with rfl | h
  · exact ⟨hnames, fun field hf => hlines field (List.mem_append_left _ hf)⟩
  · refine ⟨fun hnil => hnames (List.length_eq_zero.mp ?_), fun field hf => hlines field ?_⟩
    · rw [← hrows record h, hnil, List.length_nil]
    · exact List.mem_append_right _ (List.mem_flatten_of_mem h hf)

/-- With CRLF line breaks, as RFC 4180 prescribes, `getline` leaves each CR in its line: the
last header and every row's last field end in CR.  The calls of `next()` return as with LF, and
`get` reads every column but the last; `get` of the last header finds no column and returns the
empty string. -/
theorem readBack_crlf (hd : d ≠ '"'.toUInt8 ∧ d ≠ '\r'.toUInt8 ∧ d ≠ '\n'.toUInt8)
    {names : List (List UInt8)} (hnames : names ≠ []) (hdistinct : names.Nodup)
    {rows : List (List (List UInt8))} (hrows : ∀ row ∈ rows, row.length = names.length)
    (hlines : ∀ field ∈ names ++ rows.flatten, '\r'.toUInt8 ∉ field ∧ '\n'.toUInt8 ∉ field)
    (k : Nat) :
    ((CsvReader.create (writeTable d crlf (names :: rows)) d).afterNext k).next.1 =
        decide (k < rows.length) ∧
      ∀ hk : k < rows.length,
        names.map ((CsvReader.create (writeTable d crlf (names :: rows)) d).afterNext k).next.2.get =
          rows[k].dropLast ++ [[]] := by
  rw [show crlf = ['\r'.toUInt8] ++ ['\n'.toUInt8] from rfl]
  obtain ⟨hnext, hheaders, hindex, hvalues⟩ :=
    next_afterNext_writeTable ['\r'.toUInt8] ⟨hd.1, hd.2.2⟩
      ⟨by decide, by simpa using hd.2.1, by decide⟩
      (records_of_rows hnames hrows fun field h => (hlines field h).2) k
  refine ⟨hnext, fun hk => ?_⟩
  generalize (CsvReader.afterNext _ k).next.2 = r at hheaders hindex hvalues ⊢
  obtain ⟨ninit, nlast, rfl⟩ : ∃ ninit nlast, names = ninit ++ [nlast] :=
    ⟨_, _, (List.dropLast_append_getLast hnames).symm⟩
  have hrow := hrows _ (List.getElem_mem hk)
  obtain ⟨rinit, rlast, hrk⟩ : ∃ rinit rlast, rows[k] = rinit ++ [rlast] :=
    ⟨_, _, (List.dropLast_append_getLast (List.ne_nil_of_length_pos (by simp [hrow]))).symm⟩
  rw [hrk] at hrow
  rw [appendToLast_concat] at hheaders hindex
  have hcurrent := hvalues hk
  rw [hrk, appendToLast_concat] at hcurrent
  -- The last header as read ends in CR, so no header as written is equal to it.
  have hcr : nlast ++ ['\r'.toUInt8] ∉ ninit := fun h =>
    (hlines _ (List.mem_append_left _ (List.mem_append_left _ h))).1 (by simp)
  have hnotmem : nlast ∉ ninit ++ [nlast ++ ['\r'.toUInt8]] := by
    simpa using List.disjoint_singleton.1 (List.nodup_append.1 hdistinct).2.2
  have hread : (ninit ++ [nlast ++ ['\r'.toUInt8]]).Nodup :=
    List.nodup_append.2
      ⟨hdistinct.of_append_left, List.nodup_singleton _, List.disjoint_singleton.2 hcr⟩
  have hmap := CsvReader.map_get_headers (hheaders ▸ hread) (hheaders ▸ hindex)
    (by rw [hcurrent, hheaders]; simpa using hrow)
  rw [hheaders, hcurrent, List.map_append] at hmap
  have hinit := (List.append_inj hmap (by simpa using hrow.symm)).1
  have hlast : r.get nlast = [] :=
    CsvReader.get_of_find_none (hindex ▸ find_indexHeaders_of_not_mem hnotmem)
  rw [hrk, List.dropLast_concat, List.map_append, hinit, List.map_singleton, hlast]

/-- One column `a` and one row `x`, with CRLF line breaks: the first call of `next()` returns
`true`, and `get("a")` is empty where the row has `x`. -/
theorem readBack_crlf_one_column :
    let r := CsvReader.create (writeTable ','.toUInt8 crlf [[Json.ascii "a"], [Json.ascii "x"]])
      ','.toUInt8
    r.next.1 = true ∧ [Json.ascii "a"].map r.next.2.get = [[]] :=
  let h := readBack_crlf (by decide) (by decide) (by decide) (by decide) (by decide) 0
  ⟨h.1, h.2 (by decide)⟩

end ReadBack

/-! ## Line breaks inside fields -/

/-- `CsvReader` splits records at every LF, inside quotes too: over a table an RFC 4180 writer
writes with LF line breaks, `next()` returns `true` once per row and once more per LF inside a
field, of the header or of a row. -/
theorem next_afterNext_lf_in_fields {d : UInt8} (hd : d ≠ '\n'.toUInt8)
    (names : List (List UInt8)) (rows : List (List (List UInt8))) (k : Nat) :
    ((CsvReader.create (writeTable d lf (names :: rows)) d).afterNext k).next.1 =
      decide (k < rows.length + (names :: rows).flatten.flatten.count '\n'.toUInt8) := by
  obtain ⟨-, -, hstream⟩ := CsvReader.create_textLines (writeTable d lf (names :: rows)) d
  obtain ⟨hnext, -⟩ :=
    CsvReader.next_afterNext (CsvReader.create (writeTable d lf (names :: rows)) d) k
  obtain ⟨text, htext⟩ := writeTable_eq_append_lf d (List.cons_ne_nil names rows)
  have hlines : (textLines (writeTable d lf (names :: rows))).length =
      rows.length + 1 + (names :: rows).flatten.flatten.count '\n'.toUInt8 := by
    rw [htext, length_textLines_append_lf, ← htext, count_writeTable hd, List.length_cons]
  rw [hnext, hstream, List.length_tail, hlines]
  simp only [decide_eq_decide]
  omega

/-- The header `a` and one row with the field `x` LF `y`, which the writer puts between quotes:
two calls of `next()` return `true`. -/
theorem next_afterNext_lf_in_fields_split :
    ((CsvReader.create (writeTable ','.toUInt8 lf [[Json.ascii "a"], [Json.ascii "x\ny"]])
      ','.toUInt8).afterNext 1).next.1 = true := by
  rw [next_afterNext_lf_in_fields (by decide)]
  decide

end Csv
end PolyGenSupport
