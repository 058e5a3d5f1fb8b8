import ClassListing.Main
import ClassListing.Proofs.Command
import ClassListing.Proofs.Instruction.Decoding
import ClassListing.Proofs.Listing.Debug
import ClassListing.Proofs.Pool.Validation
import ClassListing.Proofs.Truncation
import ClassListing.Proofs.Workspace
import ClassListing.Proofs.Instruction.Refusal
import ClassListing.Proofs.Pool.Slots
import ClassListing.Proofs.Text.Token
import ClassListing.Proofs.Listing.Injective
import ClassListing.Proofs.Text.Spelling
import ClassListing.Proofs.Overwriting
import ClassListing.Proofs.Collection.Order
import ClassListing.Proofs.Json
import ClassListing.Proofs.Text.Escape
import ClassListing.Proofs.Nesting
