import QueryLint.Dialect

/-!
The two dialects that come with the library: `mxql`, and `pipeline`, which names the same stages
without regard to a vendor.
-/

namespace QueryLint
set_option autoImplicit false

namespace Dialect

inductive Builtin where
  | mxql
  | pipeline
deriving DecidableEq, Repr

def texts (ts : List String) : List Text := ts.map Text.ofString

def mxqlCommands : List (Text × Spec) := [
  ("CATEGORY", {
    role := .source, payload := .required, accepts := [.scalar, .object],
    nameKeys := texts ["category", "name"] }),
  ("TAGLOAD", {
    role := .loader, payload := .optional, accepts := [.object], suppliesData := true }),
  ("FLEX-LOAD", {
    role := .loader, payload := .required, accepts := [.object],
    suppliesData := true }),
  ("OID", {
    role := .filter, payload := .required, accepts := [.array, .scalar] }),
  ("SELECT", {
    role := .projection, payload := .required, accepts := [.array] }),
  ("FILTER", {
    role := .filter, payload := .required, accepts := [.object],
    fieldKeys := some (texts ["key"]), compareKeys := texts ["value"] }),
  ("GROUP", {
    role := .group, payload := .required, accepts := [.object],
    fieldKeys := some (texts ["pk"]), timeKeys := texts ["timeunit"],
    forbiddenKeys := [
      ⟨"key", "GROUP uses 'key' parameter - should use 'pk' instead",
        some "Use GROUP \x7bpk: \"field\"\x7d or GROUP \x7btimeunit: \"5m\", pk: \"field\"\x7d"⟩,
      ⟨"value", "GROUP uses 'value' parameter - this is UPDATE syntax, not GROUP",
        some ("GROUP uses special keywords (pk, timeunit, first, last, merge, etc.), " ++
          "not key-value pairs")⟩] }),
  ("UPDATE", {
    role := .aggregate, payload := .required, accepts := [.object],
    fieldKeys := some (texts ["key"]), functionKeys := texts ["value"] }),
  ("ORDER", {
    role := .order, payload := .required, accepts := [.object],
    fieldKeys := some (texts ["key"]) }),
  ("LIMIT", {
    role := .bound, payload := .required, accepts := [.scalar] }),
  ("CREATE", {
    role := .transform, payload := .required, accepts := [.object],
    definesKeys := texts ["key"] }),
  ("DELETE", {
    role := .transform, payload := .required, accepts := [.array] }),
  ("RENAME", {
    role := .transform, payload := .required, accepts := [.object],
    definesKeys := texts ["dst"] }),
  ("FORMAT", {
    role := .transform, payload := .required, accepts := [.object] }),
  ("UNFOLD", {
    role := .transform, payload := .required, accepts := [.array] }),
  ("JOIN", {
    role := .subqueryRef, payload := .required, accepts := [.object],
    refKeys := texts ["query"] }),
  ("APPEND", {
    role := .subqueryRef, payload := .required, accepts := [.object],
    refKeys := texts ["query"], suppliesData := true }),
  ("SUB", {
    role := .blockOpen, payload := .required, accepts := [.object, .scalar],
    nameKeys := texts ["id"] }),
  ("END", {
    role := .blockClose, payload := .none, accepts := [] }),
  ("ADDROW", {
    role := .literalRow, payload := .required, accepts := [.object],
    suppliesData := true }),
  ("TIMEADD", {
    role := .transform, payload := .required, accepts := [.object] }),
  ("TIMEPAST", {
    role := .timeRange, payload := .required, accepts := [.scalar] }),
  ("HVTEXT", { role := .transform, payload := .required, accepts := [.object] })]

def mxql : Dialect where
  name := "mxql"
  commands := mxqlCommands
  implicitFields :=
    texts ["time", "oid", "oname", "okind", "okindName", "onode", "onodeName", "pcode"]
  timeField := "time"
  templates := ⟨"SUB \x7bid: %s\x7d", "ADDROW %s", "END", "APPEND \x7bquery: %s\x7d"⟩

def pipelineCommands : List (Text × Spec) := [
  ("SOURCE", {
    role := .source, payload := .required, accepts := [.scalar, .object],
    nameKeys := texts ["category", "name"] }),
  ("LOAD", {
    role := .loader, payload := .optional, accepts := [.object], suppliesData := true }),
  ("PROJECT", {
    role := .projection, payload := .required, accepts := [.array] }),
  ("FILTER", {
    role := .filter, payload := .required, accepts := [.object],
    fieldKeys := some (texts ["key"]), compareKeys := texts ["value"] }),
  ("GROUP", {
    role := .group, payload := .required, accepts := [.object],
    fieldKeys := some (texts ["by", "key"]), timeKeys := texts ["interval"] }),
  ("AGGREGATE", {
    role := .aggregate, payload := .required, accepts := [.object],
    fieldKeys := some (texts ["target"]), functionKeys := texts ["fn"] }),
  ("ORDER", {
    role := .order, payload := .required, accepts := [.object, .array, .scalar],
    fieldKeys := some (texts ["key"]) }),
  ("BOUND", {
    role := .bound, payload := .required, accepts := [.scalar] }),
  ("CREATE", {
    role := .transform, payload := .required, accepts := [.object],
    definesKeys := texts ["key"] }),
  ("RENAME", {
    role := .transform, payload := .required, accepts := [.object],
    definesKeys := texts ["to"] }),
  ("BLOCK", {
    role := .blockOpen, payload := .required, accepts := [.scalar, .object],
    nameKeys := texts ["name"] }),
  ("END", {
    role := .blockClose, payload := .none, accepts := [] }),
  ("USE", {
    role := .subqueryRef, payload := .required, accepts := [.scalar, .object],
    refKeys := texts ["name"], suppliesData := true }),
  ("ROW", {
    role := .literalRow, payload := .required, accepts := [.object],
    suppliesData := true }),
  ("RANGE", { role := .timeRange, payload := .required, accepts := [.scalar] })]

def pipeline : Dialect where
  name := "pipeline"
  commands := pipelineCommands
  implicitFields := texts ["time"]
  timeField := "time"
  templates := ⟨"BLOCK %s", "ROW %s", "END", "USE %s"⟩

namespace Builtin

def all : List Builtin := [mxql, pipeline]

def name : Builtin → Text
  | mxql => "mxql"
  | pipeline => "pipeline"

def dialect : Builtin → Dialect
  | mxql => Dialect.mxql
  | pipeline => Dialect.pipeline

def ofName? (t : Text) : Option Builtin := all.find? fun b => b.name = t

end Builtin
end Dialect
end QueryLint
