import Provenance.Text.Utf8

/-! # The file of a database

A database keeps one table of texts under pairs of keys. Its file is made of pages of 4096 bytes: the
first has a header and says what the table and the index of its keys look like, the second is where the
table begins and the third where the index does. Two things of the file can be told from outside: that
it is no text, and how often the table was changed. What fills the pages of a table that has rows holds
times of writing, so it is left blank here. -/

namespace Provenance.Disk

/-- What a database file holds: the rows of its table, and how often the file was changed. -/
structure Image where
  rows : List ((String × String) × String)
  changes : Nat
  deriving DecidableEq, Repr, Inhabited

namespace Image

/-- A number in four bytes, the highest first. -/
def word (n : Nat) : List UInt8 :=
  [n / 0x1000000, n / 0x10000, n / 0x100, n].map UInt8.ofNat

/-- Bytes that are zero. -/
def blank (n : Nat) : List UInt8 := List.replicate n 0

/-- A page, given what stands at its two ends. -/
def page (front back : List UInt8) : List UInt8 :=
  front ++ blank (4096 - front.length - back.length) ++ back

/-- The definition of the table. -/
def definition : String :=
  "\n                ".intercalate
    ["CREATE TABLE datasets (", "name TEXT NOT NULL,", "location TEXT NOT NULL,",
      "payload TEXT NOT NULL,", "row_count INTEGER NOT NULL,", "written_at TEXT NOT NULL,",
      "PRIMARY KEY (name, location)"] ++ "\n            )"

/-- The record of the table: its kind, its name twice, its first page and its definition. -/
def tableRecord : List UInt8 :=
  [0x82, 0x38, 0x01, 0x07, 0x17, 0x1D, 0x1D, 0x01, 0x84, 0x43] ++
    Text.encode "tabledatasetsdatasets" ++ [0x02] ++ Text.encode definition

/-- The record of the index: its kind, its name, the table and its first page. -/
def indexRecord : List UInt8 :=
  [0x2F, 0x02, 0x06, 0x17, 0x43, 0x1D, 0x01, 0x00] ++
    Text.encode "indexsqlite_autoindex_datasets_1datasets" ++ [0x03]

/-- The header: the name of the format, the size and the kind of pages, the number of changes, three
pages, one definition of format four in UTF-8, and the version that changed the file last. -/
def header (changes : Nat) : List UInt8 :=
  Text.encode "SQLite format 3" ++ [0x00, 0x10, 0x00, 0x01, 0x01, 0x00, 0x40, 0x20, 0x20] ++
    [changes, 3, 0, 0, 1, 4, 0, 0, 1, 0, 0, 0].flatMap word ++ blank 20 ++
    [changes, 3045000].flatMap word

/-- The bytes of the file. -/
def bytes (i : Image) : List UInt8 :=
  page (header i.changes ++
      [0x0D, 0x0F, 0xF8, 0x00, 0x02, 0x0E, 0x8C, 0x00, 0x0E, 0x8C, 0x0F, 0xC7])
    (tableRecord ++ indexRecord ++ [0x00, 0x00, 0x00, 0x08] ++ blank 4) ++
  page [0x0D, 0x00, 0x00, 0x00, 0x00, 0x10] [] ++
  page [0x0A, 0x00, 0x00, 0x00, 0x00, 0x10] []

/-- The bytes that tell a log with changes from other files: its mark, and how many changes there are. -/
def logBytes (changes : Nat) : List UInt8 := [0x37, 0x7F, 0x06, 0x82] ++ word changes

/-- The bytes of the file in which databases share what they know of a log, while the log is empty. -/
def sharedBytes : List UInt8 :=
  let head := [0x18, 0xE2, 0x2D] ++ blank 9 ++ [0x01] ++ blank 27 ++
    [0x38, 0x07, 0x18, 0x06, 0x35, 0x93, 0xDB, 0x09]
  let marks := blank 8 ++ List.replicate 16 0xFF
  head ++ head ++ marks ++ blank (32768 - 120)

end Image

end Provenance.Disk
