import PolyGenSupport.Wire.Bytes
import PolyGenSupport.Wire.Writer
import PolyGenSupport.Wire.Reader
import PolyGenSupport.Wire.Schema
import PolyGenSupport.Wire.RoundTrip
import PolyGenSupport.Wire.Layout
import PolyGenSupport.Wire.Canonical
import PolyGenSupport.Store.Index
import PolyGenSupport.Store.Table
import PolyGenSupport.Json.Value
import PolyGenSupport.Json.Parser
import PolyGenSupport.Json.Stod
import PolyGenSupport.Json.Termination
import PolyGenSupport.Json.Grammar
import PolyGenSupport.Json.Recognise
import PolyGenSupport.Json.Objects
import PolyGenSupport.Json.Arrays
import PolyGenSupport.Json.Escapes
import PolyGenSupport.Json.Number
import PolyGenSupport.Json.Cell
import PolyGenSupport.Json.Throws
import PolyGenSupport.Csv.Stoi
import PolyGenSupport.Csv.Reader
import PolyGenSupport.Csv.Rfc4180
import PolyGenSupport.Csv.Integers
import PolyGenSupport.Csv.Fields
