/-!
# What can be wrong with a source text
-/

set_option autoImplicit false

namespace YamlCodec.Source

inductive Fault where
  | flowTooDeep
  | unclosedFlow
  | misplacedBracket
  | invalidIndentation
  | tabIndentation
  | contentAfterDocumentEnd
  | unexpectedCharacter (c : Char)
  | commentTouchesToken
  | entryInFlow
  | entryNotAllowed
  | anchorBeforeEntry
  | tabAfterEntry
  | keyExpected
  | keyNotAllowed
  | blankMissingAfterKey
  | valueNotAllowed
  | tabAfterValue
  | valueOnLaterLine
  | valueTouchesCollection
  | anchorNameMissing
  | tagHandle
  | tagAddress
  | tagEscape
  | tagUnterminated
  | directiveName
  | directiveVersion
  | directiveUnterminated
  | quoteUnclosed
  | quoteHoldsDocumentMark
  | quoteIndentation
  | contentAfterQuote
  | unknownEscape
  | invalidEscapeCode
  | plainDash
  | plainTab
  | plainEmpty
  | plainIndentation
  | plainInterrupted
  | blockZeroIndentation
  | blockHeader
  | blockTab
  | blockIndentation
  | duplicateVersion
  | duplicateHandle
  | documentStartExpected
  | directiveInsideDocument
  | undeclaredHandle
  | unknownAnchor
  | nodeExpected
  | mappingKeyExpected
  | sequenceEntryExpected
  | flowSequenceSeparator
  | flowMappingSeparator
  | inputExhausted
  deriving DecidableEq

namespace Fault

def message : Fault → String
  | flowTooDeep => "recursion limit exceeded"
  | unclosedFlow => "unclosed bracket"
  | misplacedBracket => "misplaced bracket"
  | invalidIndentation => "invalid indentation"
  | tabIndentation => "tabs disallowed within this context (block indentation)"
  | contentAfterDocumentEnd => "invalid content after document end marker"
  | unexpectedCharacter c => "unexpected character: '" ++ c.toString ++ "'"
  | commentTouchesToken => "comments must be separated from other tokens by whitespace"
  | entryInFlow => "\"-\" is only valid inside a block"
  | entryNotAllowed => "block sequence entries are not allowed in this context"
  | anchorBeforeEntry => "invalid indentation for anchor"
  | tabAfterEntry => "'-' must be followed by a valid YAML whitespace"
  | keyExpected => "simple key expected"
  | keyNotAllowed => "mapping keys are not allowed in this context"
  | blankMissingAfterKey => "expected whitespace"
  | valueNotAllowed => "mapping values are not allowed in this context"
  | tabAfterValue => "':' must be followed by a valid YAML whitespace"
  | valueOnLaterLine => "illegal placement of ':' indicator"
  | valueTouchesCollection => "':' may not precede any of '[' and '\x7b' in flow mapping"
  | anchorNameMissing => "did not find expected name of an anchor or alias"
  | tagHandle => "did not find expected '!' of a tag handle"
  | tagAddress => "did not find expected tag address"
  | tagEscape => "found an invalid escape sequence in a tag"
  | tagUnterminated => "did not find expected whitespace or line break after a tag"
  | directiveName => "could not find expected directive name"
  | directiveVersion => "did not find expected version number"
  | directiveUnterminated => "did not find expected comment or line break after a directive"
  | quoteUnclosed => "found unexpected end of stream in a quoted scalar"
  | quoteHoldsDocumentMark => "found unexpected document indicator in a quoted scalar"
  | quoteIndentation => "invalid indentation in quoted scalar"
  | contentAfterQuote => "invalid trailing content after quoted scalar"
  | unknownEscape => "found unknown escape character"
  | invalidEscapeCode => "found invalid Unicode character escape code"
  | plainDash => "plain scalar cannot start with '-' followed by ,[]\x7b\x7d"
  | plainTab => "found a tab where a plain scalar continues"
  | plainEmpty => "unexpected end of plain scalar"
  | plainIndentation => "invalid indentation in flow construct"
  | plainInterrupted => "a comment interrupts a plain scalar"
  | blockZeroIndentation => "found an indentation indicator equal to 0"
  | blockHeader => "did not find expected comment or line break"
  | blockTab => "a block scalar content cannot start with a tab"
  | blockIndentation => "wrongly indented line in block scalar"
  | duplicateVersion => "duplicate version directive"
  | duplicateHandle => "the TAG directive must only be given at most once per handle"
  | documentStartExpected => "did not find expected <document start>"
  | directiveInsideDocument => "missing explicit document end marker before directive"
  | undeclaredHandle => "the handle wasn't declared"
  | unknownAnchor => "found unknown anchor"
  | nodeExpected => "did not find expected node content"
  | mappingKeyExpected => "did not find expected key"
  | sequenceEntryExpected => "did not find expected '-' indicator"
  | flowSequenceSeparator => "did not find expected ',' or ']'"
  | flowMappingSeparator => "did not find expected ',' or '\x7d'"
  | inputExhausted => "unexpected end of input"

end Fault
end YamlCodec.Source
