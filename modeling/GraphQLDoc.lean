import GraphQLDoc.Client
import GraphQLDoc.Field.Build
import GraphQLDoc.Proofs.Alike
import GraphQLDoc.Proofs.Cutting
import GraphQLDoc.Proofs.Literals
import GraphQLDoc.Proofs.Exact
import GraphQLDoc.Proofs.Patch
import GraphQLDoc.Proofs.Repeating
import GraphQLDoc.Proofs.Flattening
import GraphQLDoc.Proofs.Acceptance
import GraphQLDoc.Proofs.Sending
import GraphQLDoc.Proofs.Injectivity
import GraphQLDoc.Proofs.Faults
import GraphQLDoc.Proofs.Overlaying
import GraphQLDoc.Proofs.JsonArguments
import GraphQLDoc.Proofs.Missing
import GraphQLDoc.Proofs.PathLists
import GraphQLDoc.Proofs.Encoding
import GraphQLDoc.Proofs.Rebuilding
import GraphQLDoc.Proofs.Gathering
import GraphQLDoc.Proofs.Declaring
import GraphQLDoc.Proofs.Reflattening
import GraphQLDoc.Proofs.Respelling
import GraphQLDoc.Proofs.Canonical
import GraphQLDoc.Proofs.Congruence
import GraphQLDoc.Proofs.Instants
import GraphQLDoc.Proofs.FragmentNames
import GraphQLDoc.Proofs.SpreadOrder
import GraphQLDoc.Proofs.Naturals
import GraphQLDoc.Proofs.JsonTexts
import GraphQLDoc.Proofs.Reports
