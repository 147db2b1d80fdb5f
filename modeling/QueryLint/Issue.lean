import QueryLint.Command

/-!
Issues: what is reported about a query.

Every finding of the library belongs to a rule, which fixes its code, severity and category. An
issue itself carries its code as text, so that lists of issues from elsewhere can be merged too.
-/

namespace QueryLint
set_option autoImplicit false

inductive Severity where
  | critical
  | warning
  | info
deriving DecidableEq, Repr

namespace Severity

def all : List Severity := [critical, warning, info]

def name : Severity → Text
  | critical => "critical"
  | warning => "warning"
  | info => "info"

def ofName? (t : Text) : Option Severity := all.find? fun severity => severity.name = t

def rank : Severity → Nat
  | critical => 0
  | warning => 1
  | info => 2

end Severity

inductive Concern where
  | structural
  | semantic
  | performance
  | style
deriving DecidableEq, Repr

namespace Concern

def all : List Concern := [structural, semantic, performance, style]

def name : Concern → Text
  | structural => "structural"
  | semantic => "semantic"
  | performance => "performance"
  | style => "style"

def ofName? (t : Text) : Option Concern := all.find? fun concern => concern.name = t

end Concern

/-- An issue. The command index is `-1` and the line `0` when the issue is about the whole query. -/
structure Issue where
  severity : Severity
  concern : Concern
  code : Text
  message : Text
  commandIndex : Int
  line : Int
  scope : Option Text
  suggestion : Option Text
deriving DecidableEq, Repr

inductive Rule where
  | strayText
  | duplicateSubquery
  | nestedBlock
  | missingBlockName
  | unmatchedBlockClose
  | unclosedBlock
  | emptyQuery
  | unbalancedDelimiters
  | payloadParseError
  | missingPayload
  | unexpectedPayload
  | payloadKindMismatch
  | forbiddenParameter
  | unknownCommand
  | loaderWithoutSource
  | aggregateWithoutGrouping
  | boundWithoutOrder
  | redundantProjection
  | undefinedSubquery
  | missingLoader
  | unknownField
  | categoryParameter
  | categoryMetadataUnavailable
  | lateFilter
  | wildcardProjection
  | excessiveGranularity
  | combineAggregations
  | unboundedResult
  | unquotedKey
  | trailingSeparator
deriving DecidableEq, Repr

namespace Rule

def code : Rule → Text
  | strayText => "stray-text"
  | duplicateSubquery => "duplicate-subquery"
  | nestedBlock => "nested-block"
  | missingBlockName => "missing-block-name"
  | unmatchedBlockClose => "unmatched-block-close"
  | unclosedBlock => "unclosed-block"
  | emptyQuery => "empty-query"
  | unbalancedDelimiters => "unbalanced-delimiters"
  | payloadParseError => "payload-parse-error"
  | missingPayload => "missing-payload"
  | unexpectedPayload => "unexpected-payload"
  | payloadKindMismatch => "payload-kind-mismatch"
  | forbiddenParameter => "forbidden-parameter"
  | unknownCommand => "unknown-command"
  | loaderWithoutSource => "loader-without-source"
  | aggregateWithoutGrouping => "aggregate-without-grouping"
  | boundWithoutOrder => "bound-without-order"
  | redundantProjection => "redundant-projection"
  | undefinedSubquery => "undefined-subquery"
  | missingLoader => "missing-loader"
  | unknownField => "unknown-field"
  | categoryParameter => "category-parameter"
  | categoryMetadataUnavailable => "category-metadata-unavailable"
  | lateFilter => "late-filter"
  | wildcardProjection => "wildcard-projection"
  | excessiveGranularity => "excessive-granularity"
  | combineAggregations => "combine-aggregations"
  | unboundedResult => "unbounded-result"
  | unquotedKey => "unquoted-key"
  | trailingSeparator => "trailing-separator"

def severity : Rule → Severity
  | duplicateSubquery | unknownCommand | boundWithoutOrder | unknownField | lateFilter
  | wildcardProjection | excessiveGranularity => .warning
  | redundantProjection | categoryParameter | categoryMetadataUnavailable | combineAggregations
  | unboundedResult | unquotedKey | trailingSeparator => .info
  | _ => .critical

def concern : Rule → Concern
  | forbiddenParameter | unknownCommand | loaderWithoutSource | aggregateWithoutGrouping
  | boundWithoutOrder | redundantProjection | undefinedSubquery | missingLoader | unknownField
  | categoryParameter | categoryMetadataUnavailable => .semantic
  | lateFilter | wildcardProjection | excessiveGranularity | combineAggregations
  | unboundedResult => .performance
  | unquotedKey | trailingSeparator => .style
  | _ => .structural

end Rule

namespace Issue

def ofCommand (c : Command) (rule : Rule) (message : Text) (suggestion : Option Text) : Issue where
  severity := rule.severity
  concern := rule.concern
  code := rule.code
  message := message
  commandIndex := c.index
  line := c.line
  scope := c.scope
  suggestion := suggestion

def ofQuery (rule : Rule) (message : Text) (suggestion : Option Text) : Issue where
  severity := rule.severity
  concern := rule.concern
  code := rule.code
  message := message
  commandIndex := -1
  line := 0
  scope := none
  suggestion := suggestion

end Issue
end QueryLint
